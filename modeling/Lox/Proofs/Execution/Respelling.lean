import Lox.Proofs.Execution.Parallel
import Lox.Proofs.Scoping.Invariance

/-!
A program corresponds to the same program with the variables of one scope respelled. Frames of that
scope name their variables anew, and all others as before; a reference has the new name just if its
distance leads to a frame of that scope.
-/

namespace Lox

namespace Respelling

/-- The naming of the frames of a scope whose variables are respelled. -/
def naming (r : Respelling) : Naming where
  Same n n' := n ≠ r.new ∧ n' = r.name n
  eq_iff := by
    rintro n _ m _ ⟨hn, rfl⟩ ⟨hm, rfl⟩
    exact (name_eq_iff hn hm).symm

/-- The namings around a place with this many scopes between itself and the respelled one. -/
def namings (r : Respelling) (depth : Nat) (c : List Naming) : List Naming :=
  List.replicate depth .plain ++ r.naming :: c

variable {r : Respelling} {c : List Naming} {depth : Nat} {inner outer : List Scope}
  {name name' : Token}

theorem namings_zero (r : Respelling) (c : List Naming) : r.namings 0 c = r.naming :: c := rfl

theorem namings_succ (r : Respelling) (depth : Nat) (c : List Naming) :
    r.namings (depth + 1) c = .plain :: r.namings depth c := rfl

/-- The only naming that respells is that of the respelled scope. -/
theorem innermost_drop_namings (hc : ∀ N ∈ c, N = .plain) (d : Nat) :
    Naming.innermost ((r.namings depth c).drop d) = if d = depth then r.naming else .plain := by
  induction depth generalizing d with
  | zero =>
    rw [namings_zero]
    cases d with
    | zero => rfl
    | succ d =>
      rw [List.drop_succ_cons]
      exact Naming.innermost_eq_plain fun N hN => hc N (List.drop_subset d c hN)
  | succ depth ih =>
    rw [namings_succ]
    cases d with
    | zero => rfl
    | succ d =>
      rw [List.drop_succ_cons, ih]
      simp only [Nat.succ_inj]

/-- Whether a name leads to the respelled scope is decided by the scopes up to it. -/
theorem distance?_append_iff (hlength : inner.length = depth + 1) :
    Scope.distance? (inner ++ outer) name = some depth ↔
      Scope.distance? inner name = some depth := by
  have hbound : ∀ d, Scope.distance? inner name = some d → d < inner.length := fun d hd =>
    (List.findIdx?_eq_some_iff_findIdx_eq.mp hd).1
  have happend : Scope.distance? (inner ++ outer) name =
      (Scope.distance? inner name).or ((Scope.distance? outer name).map (· + inner.length)) :=
    List.findIdx?_append
  rw [happend]
  cases hinner : Scope.distance? inner name with
  | some d => simp
  | none =>
    simp only [Option.none_or, Option.map_eq_some_iff, reduceCtorEq, iff_false, not_exists,
      not_and]
    omega

/-- A reference is respelled just where its variable is. -/
theorem same_reference_lexeme (hc : ∀ N ∈ c, N = .plain) (hlength : inner.length = depth + 1)
    (hname : name.lexeme ≠ r.new) :
    (Naming.ofEntry (r.namings depth c) (Scope.distance? (inner ++ outer) name)).Same name.lexeme
      (r.reference inner name).lexeme := by
  have hiff : Scope.distance? (inner ++ outer) name = some depth ↔
      Scope.distance? inner name = some depth := distance?_append_iff hlength
  unfold reference
  rw [hlength, Nat.add_sub_cancel]
  split
  · rename_i hinner
    rw [hiff.mpr hinner, Naming.ofEntry, innermost_drop_namings hc, if_pos rfl]
    exact ⟨hname, rfl⟩
  · rename_i hinner
    cases hentry : Scope.distance? (inner ++ outer) name with
    | none => rfl
    | some d =>
      have hne : d ≠ depth := by
        rintro rfl
        exact hinner (hiff.mp hentry)
      rw [Naming.ofEntry, innermost_drop_namings hc, if_neg hne]
      rfl

/-- A declaration binds the new name just where it declares in the respelled scope. -/
theorem same_declared (hc : ∀ N ∈ c, N = .plain) (hlength : inner.length = depth + 1)
    (hname : name.lexeme ≠ r.new) :
    (Naming.innermost (r.namings depth c)).Same name.lexeme (r.declared inner name).lexeme := by
  have hinnermost : Naming.innermost ((r.namings depth c).drop 0) = _ :=
    innermost_drop_namings hc 0
  rw [List.drop_zero] at hinnermost
  rw [hinnermost, declared, hlength]
  cases depth with
  | zero =>
    rw [if_pos rfl, if_pos rfl]
    exact ⟨hname, rfl⟩
  | succ depth =>
    rw [if_neg (by omega), if_neg (by omega)]
    rfl

end Respelling

namespace Parallel

variable {P : Parallel} {r : Respelling} {c : List Naming} {depth : Nat}
  {inner outer : List Scope} {nest : Nest}

/-- References have the entries that scoping made for them, in both programs. -/
def Entered (P : Parallel) (places : List Place) : Prop :=
  ∀ p ∈ places, ∀ reference ∈ p.expression.references,
    P.refs reference.1 reference.1 (Scope.distance? p.nest.scopes reference.2)

/-- Around the respelled scope names stay as they are. All tokens may stay as they are, and names of
    references may be respelled. -/
structure Allows (P : Parallel) (r : Respelling) (c : List Naming) : Prop where
  plain : ∀ N ∈ c, N = .plain
  token : ∀ t, P.token t t
  named : ∀ t t', P.token t t' → P.named t t'
  respelled : ∀ t, P.named t (r.token t)

/-- Inside another scope, names still stay as they are. -/
theorem Allows.enter (h : P.Allows r c) : P.Allows r (.plain :: c) :=
  { h with plain := List.forall_mem_cons.mpr ⟨rfl, h.plain⟩ }

/-- Whether or not a reference is respelled, it may stand where it does. -/
theorem Allows.reference (h : P.Allows r c) (scopes : List Scope) (name : Token) :
    P.named name (r.reference scopes name) := by
  unfold Respelling.reference
  split
  · exact h.respelled name
  · exact h.named _ _ (h.token name)

theorem entered_append {ps qs : List Place} :
    P.Entered (ps ++ qs) ↔ P.Entered ps ∧ P.Entered qs :=
  List.forall_mem_append

theorem entered_cons {p : Place} {ps : List Place} :
    P.Entered (p :: ps) ↔ P.Entered [p] ∧ P.Entered ps := by
  simp [Entered]

/-- The references of one expression. -/
theorem Entered.expression {e : Expr RefId} (h : P.Entered [⟨nest, e⟩]) :
    ∀ reference ∈ e.references,
      P.refs reference.1 reference.1 (Scope.distance? nest.scopes reference.2) :=
  h _ (List.mem_singleton_self _)

/-- A place inside the scope: `inner` are the scopes from there out to the respelled one, and
    `depth` of these lie before it. -/
structure Within (r : Respelling) (depth : Nat) (inner outer : List Scope) (nest : Nest) :
    Prop where
  length : inner.length = depth + 1
  unused : r.Unused inner
  scopes : nest.scopes = inner ++ outer

namespace Within

theorem ne_nil (h : Within r depth inner outer nest) : inner ≠ [] := by
  rintro rfl
  cases h.length

/-- Just inside the respelled scope, none lies before it. -/
theorem first {S : Scope} (hS : ∀ entry ∈ S, entry.1 ≠ r.new) (region : Region) (nest : Nest) :
    Within r 0 [S] nest.scopes ((region, S) :: nest) :=
  ⟨rfl, Respelling.unused_cons hS (by simp [Respelling.Unused]), rfl⟩

/-- Inside the scope any name but the new one may be recorded. -/
theorem record (h : Within r depth inner outer nest) (hname : name.lexeme ≠ r.new)
    (defined : Bool) : Within r depth (Scope.record name defined inner) outer
      (nest.record name defined) where
  length := (Respelling.length_record ..).trans h.length
  unused := Respelling.unused_record h.unused hname defined
  scopes := by rw [Nest.scopes_record, h.scopes, Respelling.record_append h.ne_nil]

/-- Inside a block or a function that is inside the scope. -/
theorem enter (h : Within r depth inner outer nest) {S : Scope} (hS : ∀ entry ∈ S, entry.1 ≠ r.new)
    (region : Region) : Within r (depth + 1) (S :: inner) outer ((region, S) :: nest) where
  length := congrArg (· + 1) h.length
  unused := Respelling.unused_cons hS h.unused
  scopes := congrArg (S :: ·) h.scopes

/-- Functions keep their names only in the respelled scope itself. -/
theorem keeps_functions (h : Within r (depth + 1) inner outer nest) (ss : List (Stmt RefId)) :
    inner.length = 1 → ∀ s ∈ ss, ¬ s.declaresFunction r.old := by
  intro hone
  have hlength := h.length
  omega

/-- Behind a statement the scopes are those that respelling gives. -/
theorem after (h : Within r depth inner outer nest) {s : Stmt RefId}
    (hfunction : inner.length = 1 → ¬ s.declaresFunction r.old) (havoids : s.Avoids r.new) :
    Within r depth (s.respell r inner).2 outer (s.places nest).2 := by
  have hkeeps := Stmt.findings_respell outer h.ne_nil h.unused false s hfunction havoids
  have hscopes := hkeeps.scopes
  rw [← h.scopes, (Stmt.findings_places false nest s).1] at hscopes
  exact ⟨hkeeps.length.trans h.length, hkeeps.unused, hscopes⟩

/-- A statement opens no scope that is still open behind it. -/
theorem length_after (h : Within r depth inner outer nest) {s : Stmt RefId}
    (hfunction : inner.length = 1 → ¬ s.declaresFunction r.old) (havoids : s.Avoids r.new) :
    (s.respell r inner).2.length = inner.length :=
  (h.after hfunction havoids).length.trans h.length.symm

/-- References inside the scope have the entries of the scopes out from there. -/
theorem entries (h : Within r depth inner outer nest) {e : Expr RefId}
    (hentered : P.Entered [⟨nest, e⟩]) : ∀ reference ∈ e.references,
      P.refs reference.1 reference.1 (Scope.distance? (inner ++ outer) reference.2) := by
  rw [← h.scopes]
  exact hentered _ (List.mem_singleton_self _)

end Within

section Inside

/-! Inside the scope. -/

/-- A reference inside the scope leads to the variable that it led to before. -/
theorem references_respell (hallows : P.Allows r c) (hlength : inner.length = depth + 1)
    {ref : RefId} {name : Token} (hname : name.lexeme ≠ r.new)
    (hentry : P.refs ref ref (Scope.distance? (inner ++ outer) name)) :
    P.References (r.namings depth c) ref name ref (r.reference inner name) :=
  ⟨hallows.reference inner name, _, hentry,
    Respelling.same_reference_lexeme hallows.plain hlength hname⟩

mutual

/-- An expression inside the scope corresponds to itself respelled. -/
theorem expressions_respell (hallows : P.Allows r c) (hlength : inner.length = depth + 1)
    (e : Expr RefId) (h : e.Avoids r.new)
    (hentries : ∀ reference ∈ e.references,
      P.refs reference.1 reference.1 (Scope.distance? (inner ++ outer) reference.2)) :
    P.Expressions (r.namings depth c) e (e.respell r inner) := by
  cases e with
  | literal => exact .literal
  | grouping e =>
    cases h with
    | grouping h => exact .grouping (expressions_respell hallows hlength e h hentries)
  | unary operator operand =>
    cases h with
    | unary _ h =>
      exact .unary (hallows.token _) (expressions_respell hallows hlength operand h hentries)
  | binary left operator right =>
    rw [Expr.references, List.forall_mem_append] at hentries
    cases h with
    | binary hleft _ hright =>
      exact .binary (expressions_respell hallows hlength left hleft hentries.1) (hallows.token _)
        (expressions_respell hallows hlength right hright hentries.2)
  | logical left operator right =>
    rw [Expr.references, List.forall_mem_append] at hentries
    cases h with
    | logical hleft _ hright =>
      exact .logical (expressions_respell hallows hlength left hleft hentries.1) (hallows.token _)
        (expressions_respell hallows hlength right hright hentries.2)
  | var ref name =>
    cases h with
    | var _ hname =>
      have hentry := hentries (ref, name) (List.mem_singleton_self _)
      exact .var (references_respell hallows hlength hname.2 hentry)
  | assign ref name value =>
    rw [Expr.references, List.forall_mem_append] at hentries
    cases h with
    | assign _ hname hvalue =>
      have hentry := hentries.2 (ref, name) (List.mem_singleton_self _)
      exact .assign (references_respell hallows hlength hname.2 hentry)
        (expressions_respell hallows hlength value hvalue hentries.1)
  | call callee paren arguments =>
    rw [Expr.references, List.forall_mem_append] at hentries
    cases h with
    | call hcallee _ harguments =>
      exact .call (expressions_respell hallows hlength callee hcallee hentries.1) (hallows.token _)
        (expressionsAll_respell hallows hlength arguments harguments hentries.2)

theorem expressionsAll_respell (hallows : P.Allows r c) (hlength : inner.length = depth + 1)
    (es : List (Expr RefId)) (h : Expr.AvoidsAll r.new es)
    (hentries : ∀ reference ∈ Expr.referencesAll es,
      P.refs reference.1 reference.1 (Scope.distance? (inner ++ outer) reference.2)) :
    P.ExpressionsAll (r.namings depth c) es (Expr.respellAll r inner es) := by
  cases es with
  | nil => exact .nil
  | cons e es =>
    rw [Expr.referencesAll, List.forall_mem_append] at hentries
    cases h with
    | cons hfirst hrest =>
      exact .cons (expressions_respell hallows hlength e hfirst hentries.1)
        (expressionsAll_respell hallows hlength es hrest hentries.2)

end

/-- An expression inside the scope corresponds to its respelling. -/
theorem expressions_within (hallows : P.Allows r c) (hwithin : Within r depth inner outer nest)
    {e : Expr RefId} (h : e.Avoids r.new) (hentered : P.Entered [⟨nest, e⟩]) :
    P.Expressions (r.namings depth c) e (e.respell r inner) :=
  expressions_respell hallows hwithin.length e h (hwithin.entries hentered)

mutual

/-- A statement inside the scope corresponds to itself respelled. -/
theorem statements_respell (hallows : P.Allows r c) {depth : Nat} {inner : List Scope}
    {nest : Nest} (hwithin : Within r depth inner outer nest) (s : Stmt RefId)
    (hfunction : inner.length = 1 → ¬ s.declaresFunction r.old) (h : s.Avoids r.new)
    (hentered : P.Entered (s.places nest).1) :
    P.Statements (r.namings depth c) s (s.respell r inner).1 := by
  cases s with
  | expression e =>
    cases h with
    | expression h => exact .expression (expressions_within hallows hwithin h hentered)
  | print e =>
    cases h with
    | print h => exact .print (expressions_within hallows hwithin h hentered)
  | var name initializer =>
    cases initializer with
    | none =>
      cases h with
      | declared hname =>
        exact .declared (Respelling.same_declared hallows.plain hwithin.length hname.2)
    | some e =>
      cases h with
      | initialized hname h =>
        exact .initialized (Respelling.same_declared hallows.plain hwithin.length hname.2)
          (expressions_within hallows (hwithin.record hname.2 false) h hentered)
  | block body =>
    cases h with
    | block h =>
      have hwithin' := hwithin.enter (List.forall_mem_nil _) (.block body)
      exact .block .plain
        (statementsAll_respellAll hallows hwithin' body (hwithin'.keeps_functions body) h hentered)
  | «if» condition thenBranch elseBranch =>
    cases elseBranch with
    | none =>
      cases h with
      | ifThen hcondition hthen =>
        obtain ⟨hcondition', hthen'⟩ := entered_cons.mp hentered
        exact .ifThen (expressions_within hallows hwithin hcondition hcondition')
          (statements_respell hallows hwithin thenBranch hfunction hthen hthen')
    | some elseBranch =>
      cases h with
      | ifElse hcondition hthen helse =>
        obtain ⟨hcondition', hbranches⟩ := entered_cons.mp hentered
        obtain ⟨hthen', helse'⟩ := entered_append.mp hbranches
        have hfunctionThen : inner.length = 1 → ¬ thenBranch.declaresFunction r.old :=
          fun hone hdeclares => hfunction hone (.inl hdeclares)
        have hlength := hwithin.length_after hfunctionThen hthen
        exact .ifElse (expressions_within hallows hwithin hcondition hcondition')
          (statements_respell hallows hwithin thenBranch hfunctionThen hthen hthen')
          (statements_respell hallows (hwithin.after hfunctionThen hthen) elseBranch
            (fun hone hdeclares => hfunction (hlength ▸ hone) (.inr hdeclares)) helse helse')
  | «while» condition body =>
    cases h with
    | «while» hcondition hbody =>
      obtain ⟨hcondition', hbody'⟩ := entered_cons.mp hentered
      exact .while (expressions_within hallows hwithin hcondition hcondition')
        (statements_respell hallows hwithin body hfunction hbody hbody')
  | function name parameters body =>
    cases h with
    | function hname hparameters hbody =>
      -- The function belongs to the scope around it, its parameters to a scope of their own.
      have hsame := Respelling.same_declared (r := r) hallows.plain hwithin.length hname.2
      rw [Respelling.declared_of_ne hfunction] at hsame
      have hwithin' := (hwithin.record hname.2 true).enter
        (Respelling.unused_ofParameters hparameters) (.function parameters body)
      exact .function .plain rfl hsame (List.forall₂_same.mpr fun _ _ => rfl)
        (statementsAll_respellAll hallows hwithin' body (hwithin'.keeps_functions body) hbody
          hentered)
  | «return» keyword value =>
    cases value with
    | none => exact .finished
    | some e =>
      cases h with
      | returned _ h => exact .returned (expressions_within hallows hwithin h hentered)

theorem statementsAll_respellAll (hallows : P.Allows r c) {depth : Nat} {inner : List Scope}
    {nest : Nest} (hwithin : Within r depth inner outer nest) (ss : List (Stmt RefId))
    (hfunctions : inner.length = 1 → ∀ s ∈ ss, ¬ s.declaresFunction r.old)
    (h : Stmt.AvoidsAll r.new ss) (hentered : P.Entered (Stmt.placesAll nest ss).1) :
    P.StatementsAll (r.namings depth c) ss (Stmt.respellAll r inner ss).1 := by
  cases ss with
  | nil => exact .nil
  | cons s rest =>
    cases h with
    | cons hfirst hrest =>
      obtain ⟨hfirst', hrest'⟩ := entered_append.mp hentered
      have hfunction : inner.length = 1 → ¬ s.declaresFunction r.old :=
        fun hone => hfunctions hone s (List.mem_cons_self ..)
      have hlength := hwithin.length_after hfunction hfirst
      exact .cons (statements_respell hallows hwithin s hfunction hfirst hfirst')
        (statementsAll_respellAll hallows (hwithin.after hfunction hfirst) rest
          (fun hone t ht => hfunctions (hlength ▸ hone) t (List.mem_cons_of_mem _ ht)) hrest hrest')

end

end Inside

section Outside

/-! Outside the scope. -/

variable {places : List Place}

/-- References correspond to themselves. -/
theorem refs_of_entered (hentered : P.Entered places) :
    ∀ reference ∈ places.flatMap fun p => p.expression.references,
      P.Refs reference.1 reference.1 := by
  intro reference hreference
  obtain ⟨p, hp, hmem⟩ := List.mem_flatMap.mp hreference
  exact ⟨_, hentered p hp reference hmem⟩

theorem expressions_self (hallows : P.Allows r c) {e : Expr RefId}
    (hentered : P.Entered [⟨nest, e⟩]) : P.Expressions c e e := by
  refine expressions_of_alike (e.alike_self hallows.token ?_) hallows.plain hallows.named
  exact fun reference hreference => ⟨_, hentered.expression reference hreference⟩

/-- A statement outside the scope corresponds to itself. -/
theorem statements_self (hallows : P.Allows r c) {s : Stmt RefId}
    (hentered : P.Entered (s.places nest).1) : P.Statements c s s := by
  refine statements_of_alike (s.alike_self hallows.token ?_) hallows.plain hallows.named
  rw [Stmt.references_places nest]
  exact refs_of_entered hentered

theorem statementsAll_self (hallows : P.Allows r c) {ss : List (Stmt RefId)}
    (hentered : P.Entered (Stmt.placesAll nest ss).1) : P.StatementsAll c ss ss := by
  refine statementsAll_of_alike (Stmt.alikeAll_self hallows.token ss ?_) hallows.plain hallows.named
  rw [Stmt.references_placesAll nest]
  exact refs_of_entered hentered

mutual

/-- A program corresponds to the same program with one scope respelled, wherever in it that scope is
    opened. -/
theorem statements_respelled {c : List Naming} (hallows : P.Allows r c)
    {s s' : Stmt RefId} (h : s.Respelled r s') (havoids : s.Avoids r.new) {nest : Nest}
    (hentered : P.Entered (s.places nest).1) : P.Statements c s s' := by
  cases h with
  | @block body hfunctions =>
    cases havoids with
    | block havoids =>
      have hwithin := Within.first (r := r) (List.forall_mem_nil _) (.block body) nest
      exact .block r.naming
        (statementsAll_respellAll hallows hwithin body (fun _ => hfunctions) havoids hentered)
  | @function body name parameters hfunctions =>
    cases havoids with
    | function hname hparameters havoids =>
      have hwithin := Within.first (Respelling.unused_ofParameters hparameters)
        (.function parameters body) (nest.record name true)
      have hbody := statementsAll_respellAll hallows hwithin body (fun _ => hfunctions) havoids
        hentered
      have hsame : (Naming.innermost c).Same name.lexeme name.lexeme := by
        rw [Naming.innermost_eq_plain hallows.plain]
        rfl
      refine .function r.naming rfl hsame ?_ hbody
      rw [Naming.Parameters, List.forall₂_map_right_iff, List.forall₂_same]
      exact fun p hp => ⟨(List.forall₂_same.mp hparameters p hp).2, rfl⟩
  | inBlock h =>
    cases havoids with
    | block havoids =>
      exact .block .plain (statementsAll_respelled hallows.enter h havoids hentered)
  | inFunction h =>
    cases havoids with
    | function hname hparameters havoids =>
      refine .function .plain rfl ?_ (List.forall₂_same.mpr fun _ _ => rfl)
        (statementsAll_respelled hallows.enter h havoids hentered)
      rw [Naming.innermost_eq_plain hallows.plain]
      rfl
  | inThen h =>
    cases havoids with
    | ifThen _ hthen =>
      obtain ⟨hcondition, hthen'⟩ := entered_cons.mp hentered
      exact .ifThen (expressions_self hallows hcondition)
        (statements_respelled hallows h hthen hthen')
    | ifElse _ hthen _ =>
      obtain ⟨hcondition, hbranches⟩ := entered_cons.mp hentered
      obtain ⟨hthen', helse⟩ := entered_append.mp hbranches
      exact .ifElse (expressions_self hallows hcondition)
        (statements_respelled hallows h hthen hthen')
        (statements_self hallows helse)
  | inElse h =>
    cases havoids with
    | ifElse _ _ helse =>
      obtain ⟨hcondition, hbranches⟩ := entered_cons.mp hentered
      obtain ⟨hthen, helse'⟩ := entered_append.mp hbranches
      exact .ifElse (expressions_self hallows hcondition)
        (statements_self hallows hthen)
        (statements_respelled hallows h helse helse')
  | inWhile h =>
    cases havoids with
    | «while» _ hbody =>
      obtain ⟨hcondition, hbody'⟩ := entered_cons.mp hentered
      exact .while (expressions_self hallows hcondition)
        (statements_respelled hallows h hbody hbody')

theorem statementsAll_respelled {c : List Naming} (hallows : P.Allows r c)
    {ss ss' : List (Stmt RefId)} (h : Stmt.RespelledAll r ss ss')
    (havoids : Stmt.AvoidsAll r.new ss) {nest : Nest}
    (hentered : P.Entered (Stmt.placesAll nest ss).1) : P.StatementsAll c ss ss' := by
  cases h with
  | first h =>
    cases havoids with
    | cons hfirst _ =>
      obtain ⟨hfirst', hrest⟩ := entered_append.mp hentered
      exact .cons (statements_respelled hallows h hfirst hfirst')
        (statementsAll_self hallows hrest)
  | rest h =>
    cases havoids with
    | cons _ hrest =>
      obtain ⟨hfirst, hrest'⟩ := entered_append.mp hentered
      exact .cons (statements_self hallows hfirst)
        (statementsAll_respelled hallows h hrest hrest')

end

end Outside

end Parallel

end Lox

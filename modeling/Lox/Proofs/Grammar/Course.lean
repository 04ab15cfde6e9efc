import Lox.Proofs.Grammar.Confinement
import Lox.Proofs.Grammar.Indexed

/-!
The course of a parser over a vector of tokens whose last token is its only end, beside the reply of
a rule to the tokens from the same index on. What the parser does on the way is sound: it moves only
forward, and looks behind itself only where there is a token.
-/

namespace Lox

namespace Parser

variable {α β γ : Type}

protected theorem pure_bind (a : α) (next : α → Parser β) : pure a >>= next = next a := by
  funext tokens i
  change Parser.bind (Parser.pure a) next tokens i = next a tokens i
  simp only [Parser.bind, Parser.pure]
  cases next a tokens i <;> rfl

protected theorem bind_assoc (p : Parser α) (next : α → Parser β) (last : β → Parser γ) :
    p >>= next >>= last = p >>= fun a => next a >>= last := by
  funext tokens i
  change Parser.bind (Parser.bind p next) last tokens i =
    Parser.bind p (fun a => Parser.bind (next a) last) tokens i
  simp only [Parser.bind]
  rcases p tokens i with _ | ⟨_ | a, errors, j, events⟩ <;> try rfl
  rcases hnext : next a tokens j with _ | ⟨_ | b, errors', k, events'⟩ <;>
    simp only [hnext]
  cases last b tokens k <;> simp [List.append_assoc]

end Parser

namespace Rule

variable {α β : Type} {ts : List Token} {t : Token} {test : Token → Bool}

/-- Where the token is the one looked for, it is taken. -/
theorem accept?_bind_of_test (h : test t = true) (next : Option Token → Rule β) :
    (accept? test >>= next) (t :: ts) = next (some t) ts := by
  rw [bind_apply_of_some (a := some t) (by rw [accept?_apply_cons h]), accept?_apply_cons h]
  rfl

/-- Where it is not, nothing is taken. -/
theorem accept?_bind_of_not (h : test (front ts) = false) (next : Option Token → Rule β) :
    (accept? test >>= next) ts = next none ts := by
  rw [bind_apply_of_some (a := none) (by rw [accept?_apply_of_not h]), accept?_apply_of_not h]
  rfl

theorem map_apply {γ : Type} (f : α → γ) (r : Rule α) (ts : List Token) :
    (f <$> r) ts = ⟨(r ts).result.map f, (r ts).errors, (r ts).rest⟩ := by
  change (r >>= fun a => pure (f a)) ts = _
  cases h : (r ts).result with
  | none =>
    rw [bind_apply_of_none h]
    rfl
  | some a =>
    rw [bind_apply_of_some h, pure_apply, List.append_nil]
    rfl

/-- The rule that never fails, but may have nothing for a result. -/
def total (r : Rule α) : Rule (Option α) :=
  fun ts => ⟨some (r ts).result, (r ts).errors, (r ts).rest⟩

end Rule

/-- The index that the parser has at an event. -/
def Event.current : Event → Nat
  | peek current | previous current | turn _ current _ _ => current

/-- Only with a token behind the index is that token looked at. A turn of a loop leaves a token
    behind at least, and has reported an error, which is among so many, if its declaration was
    dropped. -/
def Event.Sound (reported : Nat) : Event → Prop
  | peek _ => True
  | previous current => 0 < current
  | turn start current count kept =>
    start < current ∧ count ≤ reported ∧ (kept = false → 0 < count)

/-- What is sound after some reports is sound after more. -/
theorem Event.Sound.mono {m n : Nat} {e : Event} (h : e.Sound m) (hmn : m ≤ n) : e.Sound n := by
  cases e with
  | peek => trivial
  | previous => exact h
  | turn => exact ⟨h.1, h.2.1.trans hmn, h.2.2⟩

/-- From one index on to another, with so many errors in between, the parser has only moved
    forward, and all that it did was sound. -/
structure Orderly (first last reported : Nat) (events : List Event) : Prop where
  le : first ≤ last
  range : ∀ e ∈ events, first ≤ e.current ∧ e.current ≤ last
  ascending : events.Pairwise (·.current ≤ ·.current)
  sound : ∀ e ∈ events, e.Sound reported

namespace Orderly

variable {i j k m n : Nat} {events events' : List Event}

theorem nil (h : i ≤ j) : Orderly i j n [] :=
  ⟨h, by simp, .nil, by simp⟩

theorem single {e : Event} (hrange : i ≤ e.current ∧ e.current ≤ j) (hsound : e.Sound n) :
    Orderly i j n [e] :=
  ⟨hrange.1.trans hrange.2, by simpa using hrange, List.pairwise_singleton _ _,
    by simpa using hsound⟩

theorem mono (h : Orderly i j m events) (hmn : m ≤ n) : Orderly i j n events :=
  { h with sound := fun e he => (h.sound e he).mono hmn }

/-- Two orderly courses make one where the second begins at the end of the first. -/
theorem append (h : Orderly i j m events) (h' : Orderly j k n events') :
    Orderly i k (m + n) (events ++ events') := by
  refine ⟨h.le.trans h'.le, ?_, ?_, ?_⟩
  · intro e he
    rcases List.mem_append.mp he with he | he
    · exact ⟨(h.range e he).1, (h.range e he).2.trans h'.le⟩
    · exact ⟨h.le.trans (h'.range e he).1, (h'.range e he).2⟩
  · refine List.pairwise_append.mpr ⟨h.ascending, h'.ascending, fun e he e' he' => ?_⟩
    exact (h.range e he).2.trans (h'.range e' he').1
  · intro e he
    rcases List.mem_append.mp he with he | he
    · exact (h.sound e he).mono (Nat.le_add_right m n)
    · exact (h'.sound e he).mono (Nat.le_add_left n m)

/-- One event more, where the parser has come to. -/
theorem snoc {e : Event} (h : Orderly i j n events) (he : e.current = j) (hsound : e.Sound n) :
    Orderly i j n (events ++ [e]) := by
  have hsingle : Orderly j j n [e] :=
    .single ⟨Nat.le_of_eq he.symm, Nat.le_of_eq he⟩ hsound
  obtain ⟨hle, hrange, hascending, -⟩ := h.append hsingle
  refine ⟨hle, hrange, hascending, ?_⟩
  intro e' he'
  rcases List.mem_append.mp he' with he' | he'
  · exact h.sound e' he'
  · rwa [List.mem_singleton.mp he']

end Orderly

/-- A vector whose last token, at `eof`, is its only end. -/
structure Ended (tokens : List Token) (eof : Nat) : Prop where
  length_eq : tokens.length = eof + 1
  isEnd_iff : ∀ {i : Nat} {t : Token}, tokens[i]? = some t → (t.isEnd = true ↔ i = eof)

section Courses

variable {α β : Type} {tokens : List Token} {eof i j k l : Nat} {t : Token}

/-- The parser gets its result without errors, and then has the index `j`. -/
def Steps (tokens : List Token) (i : Nat) (p : Parser α) (a : α) (j : Nat) : Prop :=
  ∃ events, p tokens i = .ok ⟨some a, [], j, events⟩ ∧ Orderly i j 0 events

/-- The parser gives the reply of a rule, and leaves the tokens that the rule leaves. With a result
    it has the index `k` at least. -/
def Gives (tokens : List Token) (eof i k : Nat) (p : Parser α) (reply : Reply α) : Prop :=
  ∃ j events, p tokens i = .ok ⟨reply.result, reply.errors, j, events⟩ ∧
    reply.rest = tokens.drop j ∧ j ≤ eof ∧ (reply.result.isSome → k ≤ j) ∧
      Orderly i j reply.errors.length events

theorem Steps.pure (a : α) : Steps tokens i (Pure.pure a) a i :=
  ⟨[], rfl, .nil (Nat.le_refl i)⟩

/-- Steps are taken one after another. -/
theorem Steps.bind {p : Parser α} {next : α → Parser β} {a : α} {b : β}
    (h : Steps tokens i p a j) (hnext : Steps tokens j (next a) b k) :
    Steps tokens i (p >>= next) b k := by
  obtain ⟨events, hp, hevents⟩ := h
  obtain ⟨events', hq, hevents'⟩ := hnext
  refine ⟨events ++ events', ?_, hevents.append hevents'⟩
  change Parser.bind p next tokens i = _
  rw [Parser.bind, hp]
  simp only [hq, List.append_nil]

/-- Less progress may be asked for. -/
theorem Gives.mono {p : Parser α} {reply : Reply α} (h : Gives tokens eof i k p reply)
    (hlk : l ≤ k) : Gives tokens eof i l p reply := by
  obtain ⟨j, events, hp, hrest, hj, hsome, hevents⟩ := h
  exact ⟨j, events, hp, hrest, hj, fun h => hlk.trans (hsome h), hevents⟩

theorem Gives.pure (hi : i ≤ eof) (a : α) :
    Gives tokens eof i i (Pure.pure a) ⟨some a, [], tokens.drop i⟩ :=
  ⟨i, [], rfl, rfl, hi, fun _ => Nat.le_refl i, .nil (Nat.le_refl i)⟩

/-- Behind a step the parser gives what it gives from there. -/
theorem Gives.step {p : Parser α} {next : α → Parser β} {a : α} {reply : Reply β}
    (h : Steps tokens i p a j) (hnext : Gives tokens eof j k (next a) reply) :
    Gives tokens eof i k (p >>= next) reply := by
  obtain ⟨events, hp, hevents⟩ := h
  obtain ⟨m, events', hq, hrest, hm, hsome, hevents'⟩ := hnext
  refine ⟨m, events ++ events', ?_, hrest, hm, hsome, ?_⟩
  · change Parser.bind p next tokens i = _
    rw [Parser.bind, hp]
    simp only [hq, List.nil_append]
  · rw [← Nat.zero_add reply.errors.length]
    exact hevents.append hevents'

/-- A parser and a rule that go on the same way from every index give the same. -/
theorem Gives.bind {p : Parser α} {r : Rule α} {next : α → Parser β} {next' : α → Rule β}
    (h : Gives tokens eof i k p (r (tokens.drop i)))
    (hnext : ∀ a j, k ≤ j → i ≤ j → j ≤ eof →
      Gives tokens eof j j (next a) (next' a (tokens.drop j))) :
    Gives tokens eof i k (p >>= next) ((r >>= next') (tokens.drop i)) := by
  obtain ⟨j, events, hp, hrest, hj, hsome, hevents⟩ := h
  change Gives tokens eof i k (Parser.bind p next) _
  cases hresult : (r (tokens.drop i)).result with
  | none =>
    rw [Rule.bind_apply_of_none hresult]
    refine ⟨j, events, ?_, hrest, hj, by simp, hevents⟩
    rw [Parser.bind, hp, hresult]
  | some a =>
    rw [Rule.bind_apply_of_some hresult, hrest]
    rw [hresult] at hp hsome
    obtain ⟨m, events', hq, hrest', hm, hsome', hevents'⟩ := hnext a j (hsome rfl) hevents.le hj
    refine ⟨m, events ++ events', ?_, hrest', hm, fun h => (hsome rfl).trans (hsome' h), ?_⟩
    · rw [Parser.bind, hp]
      simp only [hq]
    · rw [List.length_append]
      exact hevents.append hevents'

/-- The value may be changed on both sides. -/
theorem Gives.map {γ : Type} {p : Parser α} {r : Rule α} (f : α → γ)
    (h : Gives tokens eof i k p (r (tokens.drop i))) :
    Gives tokens eof i k (f <$> p) ((f <$> r) (tokens.drop i)) :=
  h.bind fun a _ _ _ hj => .pure hj (f a)

/-- A report on the way is one more error. -/
theorem Gives.report {next : Parser β} {reply : Reply β} {problem : SyntaxProblem}
    (h : Gives tokens eof i k next reply) :
    Gives tokens eof i k (Parser.report t problem >>= fun _ => next)
      ⟨reply.result, ⟨t, problem⟩ :: reply.errors, reply.rest⟩ := by
  obtain ⟨j, events, hp, hrest, hj, hsome, hevents⟩ := h
  refine ⟨j, events, ?_, hrest, hj, hsome, ?_⟩
  · change Parser.bind _ _ tokens i = _
    rw [Parser.bind, Parser.report]
    simp only [hp, List.singleton_append, List.nil_append]
  · exact hevents.mono (Nat.le_succ _)

end Courses

/-- No end passes the test. -/
def Inner (test : Token → Bool) : Prop :=
  ∀ t : Token, t.isEnd = true → test t = false

theorem inner_isPunct (p : Punct) : Inner (·.isPunct p) := by
  intro t ht
  obtain ⟨kind, lexeme, line, offset⟩ := t
  cases kind <;> simp_all [Token.isEnd, Token.isPunct]

theorem inner_isKeyword (k : Keyword) : Inner (·.isKeyword k) := by
  intro t ht
  obtain ⟨kind, lexeme, line, offset⟩ := t
  cases kind <;> simp_all [Token.isEnd, Token.isKeyword]

theorem inner_isIdentifier : Inner Token.isIdentifier := by
  intro t ht
  obtain ⟨kind, lexeme, line, offset⟩ := t
  cases kind <;> simp_all [Token.isEnd, Token.isIdentifier]

section Primitives

variable {α β : Type} {tokens : List Token} {eof i j k l : Nat} {t : Token} {test : Token → Bool}

theorem steps_peek (ht : tokens[i]? = some t) : Steps tokens i Parser.peek t i :=
  ⟨[.peek i], by simp [Parser.peek, ht], .single ⟨Nat.le_refl i, Nat.le_refl i⟩ trivial⟩

theorem steps_previous (ht : tokens[i]? = some t) :
    Steps tokens (i + 1) Parser.previous t (i + 1) := by
  refine ⟨[.previous (i + 1)], by simp [Parser.previous, ht], .single ?_ (Nat.succ_pos i)⟩
  exact ⟨Nat.le_refl _, Nat.le_refl _⟩

theorem steps_move : Steps tokens i Parser.move () (i + 1) :=
  ⟨[], rfl, .nil (Nat.le_succ i)⟩

theorem steps_isAtEnd (ht : tokens[i]? = some t) : Steps tokens i Parser.isAtEnd t.isEnd i :=
  (steps_peek ht).bind (.pure _)

/-- Advancing moves one token on, unless it is the end. -/
theorem steps_advance (ht : tokens[i]? = some t) (hinner : t.isEnd = false) :
    Steps tokens i Parser.advance t (i + 1) := by
  refine (steps_isAtEnd ht).bind ?_
  rw [hinner]
  exact steps_move.bind (steps_previous ht)

/-- At the end, advancing stays and returns the token before. -/
theorem steps_advance_of_isEnd (ht : tokens[i + 1]? = some t) (hend : t.isEnd = true) {u : Token}
    (hu : tokens[i]? = some u) : Steps tokens (i + 1) Parser.advance u (i + 1) := by
  refine (steps_isAtEnd ht).bind ?_
  rw [hend]
  exact steps_previous hu

/-- Checking for an inner token looks at the current one and stays. -/
theorem steps_check (htest : Inner test) (ht : tokens[i]? = some t) :
    Steps tokens i (Parser.check test) (test t) i := by
  refine (steps_isAtEnd ht).bind ?_
  cases hend : t.isEnd with
  | true =>
    rw [htest t hend]
    exact .pure false
  | false => exact (steps_peek ht).bind (.pure _)

/-- The parser moves on just if the token in front passes the test. -/
structure Accepts (p : Parser Bool) (test : Token → Bool) : Prop where
  steps_true : ∀ {tokens i t}, tokens[i]? = some t → test t = true → Steps tokens i p true (i + 1)
  steps_false : ∀ {tokens i t}, tokens[i]? = some t → test t = false → Steps tokens i p false i

/-- A token that passes an inner test is moved over. -/
theorem steps_advance_of_test (htest : Inner test) (ht : tokens[i]? = some t)
    (htrue : test t = true) : Steps tokens i Parser.advance t (i + 1) := by
  refine steps_advance ht (Bool.eq_false_iff.mpr fun hend => ?_)
  rw [htest t hend] at htrue
  cases htrue

/-- Accepting a kind of token tests the current one and moves over it. -/
theorem accepts_accept (htest : Inner test) : Accepts (Parser.accept test) test where
  steps_true ht htrue := by
    refine (steps_check htest ht).bind ?_
    rw [htrue]
    exact (steps_advance_of_test htest ht htrue).bind (.pure true)
  steps_false ht hfalse := by
    refine (steps_check htest ht).bind ?_
    rw [hfalse]
    exact .pure false

/-- The test is passed by what passes one of the tests, and so by no end. -/
structure AnyOf (tests : List (Token → Bool)) (test : Token → Bool) : Prop where
  inner : ∀ test ∈ tests, Inner test
  eq_any : ∀ t, test t = tests.any (· t)

namespace AnyOf

variable {tests : List (Token → Bool)}

theorem inner_any (h : AnyOf tests test) : Inner test := by
  intro t ht
  rw [h.eq_any, List.any_eq_false]
  intro test htest
  rw [h.inner test htest t ht]
  exact Bool.false_ne_true

/-- Accepting one of several kinds tests for each of them in turn. -/
theorem accepts_any (htests : ∀ test ∈ tests, Inner test) :
    Accepts (Parser.acceptAny tests) fun t => tests.any (· t) := by
  induction tests with
  | nil => exact ⟨fun _ h => absurd h (by simp), fun _ _ => .pure false⟩
  | cons test tests ih =>
    obtain ⟨htest, htests⟩ := List.forall_mem_cons.mp htests
    refine ⟨@fun tokens i t ht htrue => ?_, @fun tokens i t ht hfalse => ?_⟩
    · refine (steps_check htest ht).bind ?_
      cases hfirst : test t with
      | true => exact (steps_advance_of_test htest ht hfirst).bind (.pure true)
      | false => exact (ih htests).steps_true ht (by simpa [hfirst] using htrue)
    · rw [List.any_cons, Bool.or_eq_false_iff] at hfalse
      refine (steps_check htest ht).bind ?_
      rw [hfalse.1]
      exact (ih htests).steps_false ht hfalse.2

theorem accepts (h : AnyOf tests test) : Accepts (Parser.acceptAny tests) test := by
  rw [funext h.eq_any]
  exact accepts_any h.inner

end AnyOf

/-- The parser takes the token in front and goes on. -/
theorem Gives.take {next : Bool → Parser β} {reply : Reply β} (htest : Inner test)
    (ht : tokens[i]? = some t) (htrue : test t = true)
    (hnext : Gives tokens eof (i + 1) k (next true) reply) :
    Gives tokens eof i k (Parser.accept test >>= next) reply :=
  .step ((accepts_accept htest).steps_true ht htrue) hnext

/-- The parser leaves the token in front and goes on. -/
theorem Gives.skip {next : Bool → Parser β} {reply : Reply β} (htest : Inner test)
    (ht : tokens[i]? = some t) (hfalse : test t = false)
    (hnext : Gives tokens eof i k (next false) reply) :
    Gives tokens eof i k (Parser.accept test >>= next) reply :=
  .step ((accepts_accept htest).steps_false ht hfalse) hnext

theorem Gives.take_keyword {keyword : Keyword} {next : Bool → Parser β} {reply : Reply β}
    (ht : tokens[i]? = some t) (htrue : t.isKeyword keyword = true)
    (hnext : Gives tokens eof (i + 1) k (next true) reply) :
    Gives tokens eof i k (Parser.accept (·.isKeyword keyword) >>= next) reply :=
  .take (inner_isKeyword keyword) ht htrue hnext

theorem Gives.skip_keyword {keyword : Keyword} {next : Bool → Parser β} {reply : Reply β}
    (ht : tokens[i]? = some t) (hfalse : t.isKeyword keyword = false)
    (hnext : Gives tokens eof i k (next false) reply) :
    Gives tokens eof i k (Parser.accept (·.isKeyword keyword) >>= next) reply :=
  .skip (inner_isKeyword keyword) ht hfalse hnext

end Primitives

namespace Ended

variable {α β : Type} {tokens : List Token} {eof i j k l : Nat} {t : Token} {test : Token → Bool}

/-- In range there is a token in front, and the tokens from there on are those that are left. -/
theorem exists_front (h : Ended tokens eof) (hi : i ≤ eof) :
    ∃ t, tokens[i]? = some t ∧ tokens.drop i = t :: tokens.drop (i + 1) := by
  have hlt : i < tokens.length := h.length_eq ▸ Nat.lt_succ_of_le hi
  exact ⟨tokens[i], List.getElem?_eq_getElem hlt, List.drop_eq_getElem_cons hlt⟩

/-- A token that passes an inner test stands before the end. -/
theorem lt_of_inner (h : Ended tokens eof) (hi : i ≤ eof) (ht : tokens[i]? = some t)
    (htest : Inner test) (htrue : test t = true) : i < eof := by
  refine Nat.lt_of_le_of_ne hi fun heq => ?_
  rw [htest t ((h.isEnd_iff ht).mpr heq)] at htrue
  cases htrue

/-- Both are given up with an error at the token in front. -/
theorem gives_fail (h : Ended tokens eof) (hi : i ≤ eof) (problem : SyntaxProblem) :
    Gives tokens eof i k (Parser.fail problem : Parser α) (Rule.fail problem (tokens.drop i)) := by
  obtain ⟨t, ht, hdrop⟩ := h.exists_front hi
  have hgiveUp : Gives tokens eof i k (Parser.giveUp : Parser α) ⟨none, [], tokens.drop i⟩ :=
    ⟨i, [], rfl, rfl, hi, by simp, .nil (Nat.le_refl i)⟩
  have hfront : front (tokens.drop i) = t := by
    rw [hdrop]
    rfl
  rw [Rule.fail, hfront]
  exact .step (steps_peek ht) hgiveUp.report

/-- Where the parser moves on the rule takes the token, and otherwise both go on at the same. -/
theorem gives_accept (h : Ended tokens eof) (hi : i ≤ eof) {p : Parser Bool} (hp : Accepts p test)
    (htest : Inner test) {next : Bool → Parser β} {next' : Option Token → Rule β}
    (htrue : ∀ t, tokens[i]? = some t → test t = true → i < eof →
      Gives tokens eof (i + 1) k (next true) (next' (some t) (tokens.drop (i + 1))))
    (hfalse : Gives tokens eof i k (next false) (next' none (tokens.drop i))) :
    Gives tokens eof i k (p >>= next) ((Rule.accept? test >>= next') (tokens.drop i)) := by
  obtain ⟨t, ht, hdrop⟩ := h.exists_front hi
  cases hpasses : test t with
  | true =>
    have hlt := h.lt_of_inner hi ht htest hpasses
    rw [hdrop, Rule.accept?_bind_of_test hpasses]
    exact .step (hp.steps_true ht hpasses) (htrue t ht hpasses hlt)
  | false =>
    have hfront : test (front (tokens.drop i)) = false := by rwa [hdrop]
    rw [Rule.accept?_bind_of_not hfront]
    exact .step (hp.steps_false ht hpasses) hfalse

/-- Consuming a token gives what the rule that expects it gives. -/
theorem gives_consume (h : Ended tokens eof) (hi : i ≤ eof) (htest : Inner test) (slot : Slot) :
    Gives tokens eof i (i + 1) (Parser.consume test slot)
      (Rule.expect test slot (tokens.drop i)) := by
  obtain ⟨t, ht, hdrop⟩ := h.exists_front hi
  refine .step (steps_check htest ht) ?_
  cases hpasses : test t with
  | true =>
    have hlt := h.lt_of_inner hi ht htest hpasses
    rw [hdrop, Rule.expect_apply_cons hpasses]
    obtain ⟨events, hp, hevents⟩ := steps_advance_of_test htest ht hpasses
    exact ⟨i + 1, events, hp, rfl, hlt, fun _ => Nat.le_refl _, hevents⟩
  | false =>
    have hfront : test (front (tokens.drop i)) = false := by rwa [hdrop]
    rw [Rule.expect_apply_of_not hfront]
    exact h.gives_fail hi _

/-- What follows a token that is taken in any case. -/
theorem gives_consume_bind (h : Ended tokens eof) (hi : i ≤ eof) (htest : Inner test) {slot : Slot}
    {next : Token → Parser β} {next' : Token → Rule β}
    (hnext : ∀ t j, i < j → j ≤ eof →
      Gives tokens eof j j (next t) (next' t (tokens.drop j))) :
    Gives tokens eof i i (Parser.consume test slot >>= next)
      ((Rule.expect test slot >>= next') (tokens.drop i)) :=
  ((h.gives_consume hi htest slot).bind fun t j hij _ hj => hnext t j hij hj).mono (Nat.le_succ i)

/-- Both look at the token in front. -/
theorem gives_check (h : Ended tokens eof) (hi : i ≤ eof) (htest : Inner test)
    {next : Bool → Parser β} {next' : Token → Rule β}
    (hnext : ∀ t, tokens[i]? = some t →
      Gives tokens eof i k (next (test t)) (next' t (tokens.drop i))) :
    Gives tokens eof i k (Parser.check test >>= next) ((Rule.peek >>= next') (tokens.drop i)) := by
  obtain ⟨t, ht, hdrop⟩ := h.exists_front hi
  have hpeek : (Rule.peek >>= next') (tokens.drop i) = next' t (tokens.drop i) := by
    rw [hdrop]
    rfl
  rw [hpeek]
  exact .step (steps_check htest ht) (hnext t ht)

/-- An error that is reported on the way stands at the token in front. -/
theorem gives_reporting (h : Ended tokens eof) (hi : i ≤ eof) {many : Prop} [Decidable many]
    {problem : SyntaxProblem} {p : Parser α} {r : Rule α}
    (hp : Gives tokens eof i k p (r (tokens.drop i))) :
    Gives tokens eof i k
      (if many then Parser.peek >>= fun t => Parser.report t problem >>= fun _ => p else p)
      ((if many then Rule.peek >>= fun t => Rule.report t problem >>= fun _ => r else r)
        (tokens.drop i)) := by
  by_cases hmany : many
  · simp only [hmany, if_true]
    obtain ⟨t, ht, hdrop⟩ := h.exists_front hi
    have hpeek : (Rule.peek >>= fun t => Rule.report t problem >>= fun _ => r) (tokens.drop i) =
        ⟨(r (tokens.drop i)).result, ⟨t, problem⟩ :: (r (tokens.drop i)).errors,
          (r (tokens.drop i)).rest⟩ := by
      rw [hdrop]
      rfl
    rw [hpeek]
    exact .step (steps_peek ht) hp.report
  · simpa only [hmany, if_false] using hp

/-- A token that is not the end stands before it. -/
theorem lt_of_not_isEnd (h : Ended tokens eof) (hi : i ≤ eof) (ht : tokens[i]? = some t)
    (hinner : t.isEnd = false) : i < eof := by
  refine Nat.lt_of_le_of_ne hi fun heq => ?_
  rw [(h.isEnd_iff ht).mpr heq] at hinner
  cases hinner

end Ended

/-- The parser gives what the rule replies wherever it starts from `lo` on, and moves on. -/
def GivesFrom {α : Type} (tokens : List Token) (eof lo : Nat) (p : Parser α) (r : Rule α) : Prop :=
  ∀ i, lo ≤ i → i ≤ eof → Gives tokens eof i (i + 1) p (r (tokens.drop i))

theorem GivesFrom.mono {α : Type} {tokens : List Token} {eof lo lo' : Nat} {p : Parser α}
    {r : Rule α} (h : GivesFrom tokens eof lo p r) (hle : lo ≤ lo') :
    GivesFrom tokens eof lo' p r :=
  fun i hi => h i (hle.trans hi)

end Lox

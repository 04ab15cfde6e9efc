import Lox.Proofs.Execution.Evolution
import Lox.Proofs.Execution.Naming
import Lox.Proofs.Execution.Operation
import Lox.Proofs.Scoping.Alike
import Lox.Proofs.Scoping.Layout
import Lox.Proofs.Syntax.Related

/-!
Machines compared. Some frames of two machines correspond, and others are on the chains of one of
them only, where nothing is ever bound. Corresponding frames bind corresponding names to
corresponding values, where functions correspond if their bodies do, around the frames in which they
were made. What is known of the levels around two frames is settled when the later one is made.
-/

namespace Lox

/-- Frames were added to the store, and no binding was changed. -/
structure Store.Extends (s t : Store) : Prop where
  next_le : s.next ≤ t.next
  parent? : ∀ f < s.next, t.parent? f = s.parent? f
  read? : ∀ f < s.next, ∀ name, t.read? f name = s.read? f name

theorem Store.Extends.refl (s : Store) : s.Extends s :=
  ⟨Nat.le_refl _, fun _ _ => rfl, fun _ _ _ => rfl⟩

/-- A new frame is added behind all others. -/
theorem Store.extends_push (s : Store) (frame : Frame) : s.Extends (s.push frame) where
  next_le := by simp
  parent? f hf := Store.parent?_push hf
  read? f hf name := by rw [Store.read?_push, if_neg (Nat.ne_of_lt hf)]

namespace Machine

variable (m : Machine) (enclosing : FrameId) (bindings : List (String × Value))

/-- A machine that enters a frame keeps the frames that it had. -/
theorem extends_entered : m.store.Extends (m.entered enclosing bindings).store :=
  Store.extends_push ..

theorem lt_next_entered : m.store.next < (m.entered enclosing bindings).store.next := by
  rw [entered, Store.next_push]
  exact Nat.lt_succ_self _

/-- The frame that is entered is linked to the one given. -/
theorem parent?_entered :
    (m.entered enclosing bindings).store.parent? m.store.next = some enclosing := by
  rw [entered, Store.parent?_push_next, Frame.enclosing_foldl_define]
  rfl

end Machine

/-- Frames of two runs that correspond, with what is known of the levels from there on. -/
abbrev Pairing (ι : Type) := List ι → FrameId → FrameId → Prop

namespace Pairing

variable {ι : Type}

/-- One more pair of frames. -/
def enter (w : Pairing ι) (c : List ι) (f f' : FrameId) : Pairing ι :=
  fun b g g' => w b g g' ∨ b = c ∧ g = f ∧ g' = f'

/-- Frames that corresponded still do. -/
theorem le_enter (w : Pairing ι) (c : List ι) (f f' : FrameId) : w ≤ w.enter c f f' :=
  fun _ _ _ => .inl

theorem enter_same (w : Pairing ι) (c : List ι) (f f' : FrameId) : w.enter c f f' c f f' :=
  .inr ⟨rfl, rfl, rfl⟩

/-- Each of the first `n` frames beside itself. -/
def same (n : Nat) : Pairing ι :=
  fun c f f' => c = [] ∧ f' = f ∧ f < n

end Pairing

/-- How two runs are compared. Of a level, `side?` tells whether it is on one chain only, and
    `naming` how its names correspond. Of two references, `refs` tells their entries. None of this
    changes while the runs go on. -/
structure Comparison (ι : Type) where
  side? : ι → Option Side
  naming : ι → Naming
  token : Token → Token → Prop
  sameText : ∀ {t t'}, token t t' → t.SameText t'
  named : Token → Token → Prop
  refs : RefId → RefId → Option Nat → Option Nat → Prop
  /-- Statements that do the same where the levels are these. The Boolean tells whether there may be
      a block around the second. -/
  statements : Bool → List ι → Stmt RefId → Stmt RefId → Prop
  /-- Functions that do the same, if they were made where the levels are these. The level is that of
      the frames of their calls. -/
  functions : List ι → ι → Closure → Closure → Prop
  shared : ∀ {c l f f'}, functions c l f f' → side? l = none
  parameters : ∀ {c l f f'}, functions c l f f' → (naming l).Parameters f.parameters f'.parameters
  body : ∀ {c l f f'}, functions c l f f' → List.Forall₂ (statements true (l :: c)) f.body f'.body
  /-- What the second machine had printed when the first had printed nothing. -/
  before : String

namespace Comparison

variable {ι : Type} (C : Comparison ι)

section Levels

/-- The innermost level is on both chains. -/
def Shared (c : List ι) : Prop :=
  ∀ l ∈ c.head?, C.side? l = none

/-- The naming of the innermost level. Beyond these levels all names are the same. -/
def innermost (c : List ι) : Naming :=
  (c.head?.map C.naming).getD .plain

/-- From the places where the chains begin, these distances lead to the same level. From there on
    the levels are `b`. -/
inductive Meets : List ι → Nat → Nat → List ι → Prop
  | here {c : List ι} (hc : C.Shared c) : Meets c 0 0 c
  | further {c : List ι} (hc : C.Shared c) (h : Meets c.tail d d' b) : Meets c (d + 1) (d' + 1) b
  | first (hl : C.side? l = some .first) (h : Meets c d d' b) : Meets (l :: c) (d + 1) d' b
  | second (hl : C.side? l = some .second) (h : Meets c d d' b) : Meets (l :: c) d (d' + 1) b

/-- References with these entries and names lead to corresponding variables. -/
inductive Leads (c : List ι) : Option Nat → Option Nat → String → String → Prop
  | globals {n : String} : Leads c none none n n
  | frame {d d' : Nat} {b : List ι} {n n' : String} (h : C.Meets c d d' b)
      (hsame : (C.innermost b).Same n n') : Leads c (some d) (some d') n n'

structure Refers (c : List ι) (ref : RefId) (name : Token) (ref' : RefId) (name' : Token) :
    Prop where
  named : C.named name name'
  exists_entries : ∃ entry entry', C.refs ref ref' entry entry' ∧
    C.Leads c entry entry' name.lexeme name'.lexeme

/-- Expressions that do the same where the levels are these. -/
abbrev Expressions (c : List ι) : Expr RefId → Expr RefId → Prop :=
  Expr.Related C.token (C.Refers c)

/-- Statements of one form, with corresponding parts. What a declaration binds is bound on a level
    that both chains have. -/
inductive Forms (c : List ι) : Stmt RefId → Stmt RefId → Prop
  | expression (he : C.Expressions c e e') : Forms c (.expression e) (.expression e')
  | print (he : C.Expressions c e e') : Forms c (.print e) (.print e')
  | declared (hc : C.Shared c) (hname : (C.innermost c).Same name.lexeme name'.lexeme) :
      Forms c (.var name none) (.var name' none)
  | initialized (hc : C.Shared c) (hname : (C.innermost c).Same name.lexeme name'.lexeme)
      (he : C.Expressions c e e') : Forms c (.var name (some e)) (.var name' (some e'))
  | block (l : ι) (hl : C.side? l = none)
      (hbody : List.Forall₂ (C.statements true (l :: c)) ss ss') :
      Forms c (.block ss) (.block ss')
  | ifThen (he : C.Expressions c e e') (hthen : C.statements true c s s') :
      Forms c (.if e s none) (.if e' s' none)
  | ifElse (he : C.Expressions c e e') (hthen : C.statements true c s s')
      (helse : C.statements true c t t') : Forms c (.if e s (some t)) (.if e' s' (some t'))
  | while (he : C.Expressions c e e') (hbody : C.statements true c s s') :
      Forms c (.while e s) (.while e' s')
  | function (l : ι) (hc : C.Shared c) (hlexeme : name'.lexeme = name.lexeme)
      (hname : (C.innermost c).Same name.lexeme name'.lexeme)
      (h : ∀ identity identity' f f', C.functions c l ⟨identity, name, ps, ss, f⟩
        ⟨identity', name', ps', ss', f'⟩) :
      Forms c (.function name ps ss) (.function name' ps' ss')
  | finished : Forms c (.return keyword none) (.return keyword' none)
  | returned (he : C.Expressions c e e') :
      Forms c (.return keyword (some e)) (.return keyword' (some e'))

/-- The second statement is a block around one that does what the first does. -/
def Wraps (c : List ι) (s s' : Stmt RefId) : Prop :=
  ∃ l t, C.side? l = some .second ∧ s' = .block [t] ∧ C.statements false (l :: c) s t

end Levels

/-- Functions that correspond: their bodies do, where they were made. -/
structure Closures (w : Pairing ι) (f f' : Closure) : Prop where
  identity : f'.identity = f.identity
  lexeme : f'.name.lexeme = f.name.lexeme
  exists_functions : ∃ c l, w c f.frame f'.frame ∧ C.functions c l f f'

inductive Values (w : Pairing ι) : Value → Value → Prop
  | plain {value : Value} (h : ∀ f, value ≠ .function f) : Values w value value
  | function {f f' : Closure} (h : C.Closures w f f') : Values w (.function f) (.function f')

inductive Callables (w : Pairing ι) : Callable → Callable → Prop
  | native {f : Native} : Callables w (.native f) (.native f)
  | function {f f' : Closure} (h : C.Closures w f f') : Callables w (.function f) (.function f')

inductive Flows (w : Pairing ι) : Flow → Flow → Prop
  | normal : Flows w .normal .normal
  | returned {value value' : Value} (h : C.Values w value value') :
      Flows w (.returned value) (.returned value')

/-- Stores in which these frames correspond, among them `g` and `g'` as the globals. Corresponding
    frames are linked to corresponding frames. Where the level is on both chains, they belong to no
    other pair, and bind corresponding names to corresponding values. -/
structure Stores (w : Pairing ι) (g g' : FrameId) (s s' : Store) : Prop where
  lt_next : ∀ {c f f'}, w c f f' → f < s.next ∧ f' < s'.next
  parent? : ∀ {c f f'}, C.Shared c → w c f f' →
    Option.Rel (w c.tail) (s.parent? f) (s'.parent? f')
  first : ∀ {l c f f'}, C.side? l = some .first → w (l :: c) f f' →
    ∃ parent, s.parent? f = some parent ∧ w c parent f'
  second : ∀ {l c f f'}, C.side? l = some .second → w (l :: c) f f' →
    ∃ parent, s'.parent? f' = some parent ∧ w c f parent
  eq_iff : ∀ {b c k k' f f'}, C.Shared b → C.Shared c → w b k k' → w c f f' → (k = f ↔ k' = f')
  innermost_eq : ∀ {b c f f'}, C.Shared b → C.Shared c → w b f f' → w c f f' →
    C.innermost b = C.innermost c
  read? : ∀ {c f f' n n'}, C.Shared c → w c f f' → (C.innermost c).Same n n' →
    Option.Rel (C.Values w) (s.read? f n) (s'.read? f' n')
  globals : w [] g g'
  outermost : s.parent? g = none

/-- Corresponding machines, in frames from which on the levels are these. -/
structure Machines (w : Pairing ι) (c : List ι) (m m' : Machine) : Prop where
  store : C.Stores w m.globals m'.globals m.store m'.store
  here : w c m.environment m'.environment
  callDepth : m'.callDepth = m.callDepth
  distances : ∀ {r r' : Nat} {entry entry'}, C.refs r r' entry entry' →
    m.distances[r]? = entry ∧ m'.distances[r']? = entry'
  functions : m'.functions = m.functions
  clock : m'.clock = m.clock
  output : m'.output = C.before ++ m.output

variable {C} {w w' : Pairing ι} {c : List ι} {v v' x x' y y' : Value} {f f' : Closure}

section Values

/-- Functions that were made in corresponding frames still correspond when more frames do. -/
theorem Closures.mono (h : C.Closures w f f') (hle : w ≤ w') : C.Closures w' f f' := by
  obtain ⟨c, l, hw, hfunctions⟩ := h.exists_functions
  exact ⟨h.identity, h.lexeme, c, l, hle _ _ _ hw, hfunctions⟩

/-- What corresponds still does when more frames do. -/
theorem Values.mono (h : C.Values w v v') (hle : w ≤ w') : C.Values w' v v' := by
  cases h with
  | plain h => exact .plain h
  | function h => exact .function (h.mono hle)

theorem Values.mono_option {found found' : Option Value}
    (h : Option.Rel (C.Values w) found found') (hle : w ≤ w') :
    Option.Rel (C.Values w') found found' := by
  cases h with
  | none => exact .none
  | some h => exact .some (h.mono hle)

theorem Values.mono_list {values values' : List Value}
    (h : List.Forall₂ (C.Values w) values values') (hle : w ≤ w') :
    List.Forall₂ (C.Values w') values values' :=
  h.imp fun _ _ hvalue => hvalue.mono hle

/-- A value of which the program made no function corresponds to itself. -/
theorem Values.of_callable? (h : v.callable? = none) : C.Values w v v :=
  .plain (Value.ne_function h)

/-- Corresponding values cannot be told apart by operators, and are written the same. -/
theorem Values.resembles (h : C.Values w v v') : v.Resembles v' := by
  cases h with
  | plain h => exact .plain h
  | function h => exact .function h.identity h.lexeme

/-- A body that ends without a return has the value nil on both sides. -/
theorem Flows.value {flow flow' : Flow} (h : C.Flows w flow flow') :
    C.Values w flow.value flow'.value := by
  cases h with
  | normal => exact .of_callable? rfl
  | returned h => exact h

/-- Corresponding functions take the same number of arguments. -/
theorem Closures.arity (h : C.Closures w f f') : f'.parameters.length = f.parameters.length := by
  obtain ⟨c, l, -, hfunctions⟩ := h.exists_functions
  exact (C.parameters hfunctions).length_eq.symm

end Values

section Stores

variable {g g' f f' : FrameId} {s s' t t' : Store} {d d' : Nat} {b : List ι} {n n' : String}

/-- Distances that meet lead to corresponding frames, on a level that both chains have. -/
theorem Stores.frameAbove? (h : C.Stores w g g' s s') (hf : w c f f') (hd : C.Meets c d d' b) :
    Option.Rel (fun k k' => C.Shared b ∧ w b k k') (s.frameAbove? f d) (s'.frameAbove? f' d') := by
  induction hd generalizing f f' with
  | here hc => exact .some ⟨hc, hf⟩
  | further hc _ ih =>
    have hparent := h.parent? hc hf
    rw [Store.frameAbove?, Store.frameAbove?]
    generalize s.parent? f = parent at hparent ⊢
    generalize s'.parent? f' = parent' at hparent ⊢
    cases hparent with
    | none => exact .none
    | some hw => exact ih hw
  | first hl _ ih =>
    obtain ⟨parent, hparent, hw⟩ := h.first hl hf
    rw [Store.frameAbove?, hparent]
    exact ih hw
  | second hl _ ih =>
    obtain ⟨parent, hparent, hw⟩ := h.second hl hf
    rw [Store.frameAbove?.eq_def s', hparent]
    exact ih hw

/-- Reading at distances that meet finds corresponding values, or nothing on either side. -/
theorem Stores.getAt? (h : C.Stores w g g' s s') (hf : w c f f') (hd : C.Meets c d d' b)
    (hname : (C.innermost b).Same n n') :
    Option.Rel (C.Values w) (s.getAt? f d n) (s'.getAt? f' d' n') := by
  have howner := h.frameAbove? hf hd
  rw [Store.getAt?, Store.getAt?]
  generalize s.frameAbove? f d = owner at howner ⊢
  generalize s'.frameAbove? f' d' = owner' at howner ⊢
  cases howner with
  | none => exact .none
  | some hw => exact h.read? hw.1 hw.2 hname

/-- Beyond all levels that are known the chains have the same frames. -/
theorem shared_nil : C.Shared [] :=
  nofun

/-- The globals are enclosed by no frame in both stores. -/
theorem Stores.root (h : C.Stores w g g' s s') :
    s.parent? g = none ∧ g < s.next ∧ s'.parent? g' = none ∧ g' < s'.next := by
  obtain ⟨hlt, hlt'⟩ := h.lt_next h.globals
  have hparent := h.parent? shared_nil h.globals
  rw [h.outermost] at hparent
  refine ⟨h.outermost, hlt, ?_, hlt'⟩
  generalize s'.parent? g' = parent' at hparent ⊢
  cases hparent
  rfl

/-- Reading a global finds corresponding values, or nothing on either side. -/
theorem Stores.get? (h : C.Stores w g g' s s') (name : String) :
    Option.Rel (C.Values w) (s.get? g name) (s'.get? g' name) := by
  obtain ⟨hroot, hlt, hroot', hlt'⟩ := h.root
  rw [Store.get?_of_root hroot hlt, Store.get?_of_root hroot' hlt']
  exact h.read? shared_nil h.globals rfl

/-- Binding corresponding names to corresponding values, in frames that both chains have, keeps the
    stores corresponding. -/
theorem Stores.define (h : C.Stores w g g' s s') (hc : C.Shared c) (hf : w c f f')
    (hname : (C.innermost c).Same n n') (hvalue : C.Values w v v') :
    C.Stores w g g' (s.define f n v) (s'.define f' n' v') where
  lt_next hk := by simpa using h.lt_next hk
  parent? hb hk := by simpa using h.parent? hb hk
  first hl hk := by simpa using h.first hl hk
  second hl hk := by simpa using h.second hl hk
  eq_iff := h.eq_iff
  innermost_eq := h.innermost_eq
  read? {b k k' i i'} hb hk hother := by
    obtain ⟨hlt, hlt'⟩ := h.lt_next hf
    have hframe : f = k ↔ f' = k' := h.eq_iff hc hb hf hk
    have hsame : (f' = k' ∧ n' = i' ∧ f' < s'.next) ↔ (f = k ∧ n = i ∧ f < s.next) := by
      rw [iff_true_intro hlt, iff_true_intro hlt', and_true, and_true, ← hframe]
      refine and_congr_right fun heq => ?_
      obtain rfl := heq
      obtain rfl := hframe.mp rfl
      rw [h.innermost_eq hb hc hk hf] at hother
      exact ((C.innermost c).eq_iff hname hother).symm
    rw [Store.read?_define_eq, Store.read?_define_eq, if_congr hsame rfl rfl]
    split
    · exact .some hvalue
    · exact h.read? hb hk hother
  globals := h.globals
  outermost := by simpa using h.outermost

/-- Corresponding frames bind corresponding names or neither does. -/
theorem Stores.binds (h : C.Stores w g g' s s') (hc : C.Shared c) (hf : w c f f')
    (hname : (C.innermost c).Same n n') : s'.binds f' n' = s.binds f n := by
  have hread := h.read? hc hf hname
  rw [Bool.eq_iff_iff, Store.binds_iff, Store.binds_iff]
  generalize s.read? f n = found at hread ⊢
  generalize s'.read? f' n' = found' at hread ⊢
  cases hread with
  | none => rfl
  | some => simp

/-- Stores that are left behind by writes that both succeed or both fail. -/
def Written (C : Comparison ι) (w : Pairing ι) (g g' : FrameId) (written written' : Bool × Store) :
    Prop :=
  written'.1 = written.1 ∧ C.Stores w g g' written.2 written'.2

/-- A write to corresponding frames happens on both sides or on neither. -/
theorem Stores.write (h : C.Stores w g g' s s') (hc : C.Shared c) (hf : w c f f')
    (hname : (C.innermost c).Same n n') (hvalue : C.Values w v v') :
    C.Written w g g' (s.write f n v) (s'.write f' n' v') := by
  unfold Store.write
  rw [h.binds hc hf hname]
  split
  · exact ⟨rfl, h.define hc hf hname hvalue⟩
  · exact ⟨rfl, h⟩

/-- An assignment at distances that meet happens on both sides or on neither. -/
theorem Stores.assignAt (h : C.Stores w g g' s s') (hf : w c f f') (hd : C.Meets c d d' b)
    (hname : (C.innermost b).Same n n') (hvalue : C.Values w v v') :
    C.Written w g g' (s.assignAt f d n v) (s'.assignAt f' d' n' v') := by
  have howner := h.frameAbove? hf hd
  unfold Store.assignAt
  generalize s.frameAbove? f d = owner at howner ⊢
  generalize s'.frameAbove? f' d' = owner' at howner ⊢
  cases howner with
  | none => exact ⟨rfl, h⟩
  | some hw => exact h.write hw.1 hw.2 hname hvalue

/-- An assignment to a global happens on both sides or on neither. -/
theorem Stores.assign (h : C.Stores w g g' s s') (hvalue : C.Values w v v') (name : String) :
    C.Written w g g' (s.assign g name v) (s'.assign g' name v') := by
  obtain ⟨hroot, hlt, hroot', hlt'⟩ := h.root
  rw [Store.assign_of_root hroot hlt, Store.assign_of_root hroot' hlt']
  exact h.write shared_nil h.globals rfl hvalue

end Stores

section Entered

/-! A frame is entered by both machines or by one. -/

variable {g g' f f' : FrameId} {s s' t t' : Store} {b : List ι} {l : ι}

/-- One more pair of frames corresponds, of which at least one is new. -/
theorem Stores.enter (h : C.Stores w g g' s s') (ht : s.Extends t) (ht' : s'.Extends t')
    (hlt : f < t.next ∧ f' < t'.next)
    (hparent : C.Shared c → Option.Rel (w c.tail) (t.parent? f) (t'.parent? f'))
    (hfirst : ∀ l b, C.side? l = some .first → c = l :: b →
      ∃ parent, t.parent? f = some parent ∧ w b parent f')
    (hsecond : ∀ l b, C.side? l = some .second → c = l :: b →
      ∃ parent, t'.parent? f' = some parent ∧ w b f parent)
    (hnew : C.Shared c → f = s.next ∧ f' = s'.next)
    (hread : C.Shared c → ∀ n n', (C.innermost c).Same n n' →
      Option.Rel (C.Values w) (t.read? f n) (t'.read? f' n')) :
    C.Stores (w.enter c f f') g g' t t' := by
  have hle : w ≤ w.enter c f f' := w.le_enter c f f'
  have hother {b : List ι} {k k' : FrameId} (hc : C.Shared c) (hk : w b k k') :
      k ≠ f ∧ k' ≠ f' := by
    obtain ⟨rfl, rfl⟩ := hnew hc
    obtain ⟨hlt, hlt'⟩ := h.lt_next hk
    exact ⟨Nat.ne_of_lt hlt, Nat.ne_of_lt hlt'⟩
  have hmono {b : List ι} {k k' : Option FrameId} (hk : Option.Rel (w b) k k') :
      Option.Rel (w.enter c f f' b) k k' := by
    cases hk with
    | none => exact .none
    | some hw => exact .some (.inl hw)
  constructor
  case lt_next =>
    rintro b k k' (hk | ⟨rfl, rfl, rfl⟩)
    · obtain ⟨hlt, hlt'⟩ := h.lt_next hk
      exact ⟨Nat.lt_of_lt_of_le hlt ht.next_le, Nat.lt_of_lt_of_le hlt' ht'.next_le⟩
    · exact hlt
  case parent? =>
    rintro b k k' hb (hk | ⟨rfl, rfl, rfl⟩)
    · obtain ⟨hlt, hlt'⟩ := h.lt_next hk
      rw [ht.parent? k hlt, ht'.parent? k' hlt']
      exact hmono (h.parent? hb hk)
    · exact hmono (hparent hb)
  case first =>
    rintro l b k k' hl (hk | ⟨heq, rfl, rfl⟩)
    · obtain ⟨parent, hlink, hw⟩ := h.first hl hk
      exact ⟨parent, (ht.parent? k (h.lt_next hk).1).trans hlink, .inl hw⟩
    · obtain ⟨parent, hlink, hw⟩ := hfirst l b hl heq.symm
      exact ⟨parent, hlink, .inl hw⟩
  case second =>
    rintro l b k k' hl (hk | ⟨heq, rfl, rfl⟩)
    · obtain ⟨parent, hlink, hw⟩ := h.second hl hk
      exact ⟨parent, (ht'.parent? k' (h.lt_next hk).2).trans hlink, .inl hw⟩
    · obtain ⟨parent, hlink, hw⟩ := hsecond l b hl heq.symm
      exact ⟨parent, hlink, .inl hw⟩
  case eq_iff =>
    rintro a b i i' k k' ha hb (hi | ⟨rfl, rfl, rfl⟩) (hk | ⟨rfl, rfl, rfl⟩)
    · exact h.eq_iff ha hb hi hk
    · exact iff_of_false (hother hb hi).1 (hother hb hi).2
    · exact iff_of_false (hother ha hk).1.symm (hother ha hk).2.symm
    · exact iff_of_true rfl rfl
  case innermost_eq =>
    rintro a b k k' ha hb (hi | ⟨rfl, rfl, rfl⟩) (hk | ⟨rfl, heq, -⟩)
    · exact h.innermost_eq ha hb hi hk
    · exact absurd heq (hother hb hi).1
    · exact absurd rfl (hother ha hk).1
    · rfl
  case read? =>
    rintro b k k' n n' hb (hk | ⟨rfl, rfl, rfl⟩) hname
    · obtain ⟨hlt, hlt'⟩ := h.lt_next hk
      rw [ht.read? k hlt, ht'.read? k' hlt']
      exact Values.mono_option (h.read? hb hk hname) hle
    · exact Values.mono_option (hread hb n n' hname) hle
  case globals => exact .inl h.globals
  case outermost => exact (ht.parent? _ (h.lt_next h.globals).1).trans h.outermost

/-- Corresponding values for corresponding names of a frame. -/
def Bindings (C : Comparison ι) (w : Pairing ι) (N : Naming) (b b' : String × Value) : Prop :=
  N.Same b.1 b'.1 ∧ C.Values w b.2 b'.2

variable {bindings bindings' : List (String × Value)} {N : Naming}

/-- Frames that bind corresponding names to corresponding values still do when such bindings are
    added, one after the other. -/
theorem rel_get?_foldl_define (h : List.Forall₂ (C.Bindings w N) bindings bindings')
    {frame frame' : Frame} {n n' : String}
    (hframe : ∀ n n', N.Same n n' → Option.Rel (C.Values w) (frame.get? n) (frame'.get? n'))
    (hname : N.Same n n') :
    Option.Rel (C.Values w) ((bindings.foldl (fun f b => f.define b.1 b.2) frame).get? n)
      ((bindings'.foldl (fun f b => f.define b.1 b.2) frame').get? n') := by
  induction h generalizing frame frame' with
  | nil => exact hframe n n' hname
  | cons hfirst _ ih =>
    obtain ⟨hbound, hvalue⟩ := hfirst
    refine ih fun m m' hother => ?_
    rw [Frame.get?_define, Frame.get?_define, if_congr (N.eq_iff hbound hother).symm rfl rfl]
    split
    · exact .some hvalue
    · exact hframe m m' hother

/-- The parameters of a function correspond, and the arguments do. -/
theorem bindings_of_parameters {parameters parameters' : List Token}
    {arguments arguments' : List Value} (h : N.Parameters parameters parameters')
    (harguments : List.Forall₂ (C.Values w) arguments arguments') :
    List.Forall₂ (C.Bindings w N) ((parameters.map (·.lexeme)).zip arguments)
      ((parameters'.map (·.lexeme)).zip arguments') := by
  unfold Naming.Parameters at h
  induction h generalizing arguments arguments' with
  | nil => exact .nil
  | cons hfirst _ ih =>
    cases harguments with
    | nil => exact .nil
    | cons hvalue hvalues => exact .cons ⟨hfirst, hvalue⟩ (ih hvalues)

variable {m m' : Machine} {enclosing enclosing' : FrameId}

/-- Both machines enter a new frame. -/
theorem Machines.enterBoth (hm : C.Machines w c m m') (henclosing : w b enclosing enclosing')
    (hl : C.side? l = none)
    (hbindings : List.Forall₂ (C.Bindings w (C.naming l)) bindings bindings') :
    C.Machines (w.enter (l :: b) m.store.next m'.store.next) (l :: b)
      (m.entered enclosing bindings) (m'.entered enclosing' bindings') := by
  have honly {side : Side} (k : ι) (a : List ι) (hk : C.side? k = some side)
      (heq : l :: b = k :: a) : False := by
    obtain rfl := (List.cons.inj heq).1
    rw [hl] at hk
    cases hk
  refine { hm with store := ?_, here := w.enter_same .. }
  refine hm.store.enter (m.extends_entered ..) (m'.extends_entered ..)
    ⟨m.lt_next_entered .., m'.lt_next_entered ..⟩ (fun _ => ?_) (fun k a hk heq => ?_)
    (fun k a hk heq => ?_) (fun _ => ⟨rfl, rfl⟩) fun _ n n' hname => ?_
  · rw [m.parent?_entered, m'.parent?_entered]
    exact .some henclosing
  · exact (honly k a hk heq).elim
  · exact (honly k a hk heq).elim
  · unfold Machine.entered
    rw [Store.read?_push, Store.read?_push, if_pos rfl, if_pos rfl]
    refine rel_get?_foldl_define hbindings (fun i i' _ => ?_) hname
    rw [Frame.get?, Frame.get?, Frame.empty, Frame.empty, Std.TreeMap.getElem?_emptyc,
      Std.TreeMap.getElem?_emptyc]
    exact .none

/-- A level that one side lacks is not shared, so nothing is known of what is bound there. -/
theorem not_shared_of_side {side : Side} (hl : C.side? l = some side) : ¬ C.Shared (l :: c) := by
  intro hshared
  have hnone := hshared l rfl
  rw [hl] at hnone
  cases hnone

/-- Only the first machine enters a new frame. -/
theorem Machines.enterFirst (hm : C.Machines w c m m') (hl : C.side? l = some .first) :
    C.Machines (w.enter (l :: c) m.store.next m'.environment) (l :: c)
      (m.entered m.environment []) m' := by
  have hshared := not_shared_of_side (c := c) hl
  refine { hm with store := ?_, here := w.enter_same .. }
  refine hm.store.enter (m.extends_entered ..) (.refl _)
    ⟨m.lt_next_entered .., (hm.store.lt_next hm.here).2⟩ (fun h => absurd h hshared) ?_ ?_
    (fun h => absurd h hshared) fun h => absurd h hshared
  · rintro _ _ - ⟨⟩
    exact ⟨_, m.parent?_entered .., hm.here⟩
  · rintro _ _ hk ⟨⟩
    rw [hl] at hk
    cases hk

/-- Only the second machine enters a new frame. -/
theorem Machines.enterSecond (hm : C.Machines w c m m') (hl : C.side? l = some .second) :
    C.Machines (w.enter (l :: c) m.environment m'.store.next) (l :: c)
      m (m'.entered m'.environment []) := by
  have hshared := not_shared_of_side (c := c) hl
  refine { hm with store := ?_, here := w.enter_same .. }
  refine hm.store.enter (.refl _) (m'.extends_entered ..)
    ⟨(hm.store.lt_next hm.here).1, m'.lt_next_entered ..⟩ (fun h => absurd h hshared) ?_ ?_
    (fun h => absurd h hshared) fun h => absurd h hshared
  · rintro _ _ hk ⟨⟩
    rw [hl] at hk
    cases hk
  · rintro _ _ - ⟨⟩
    exact ⟨_, m'.parent?_entered .., hm.here⟩

end Entered

end Comparison

end Lox

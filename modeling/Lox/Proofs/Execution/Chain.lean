import Mathlib.Tactic
import Lox.Proofs.Execution.Building
import Lox.Proofs.Execution.Writing

namespace Lox

namespace Store

variable {s t : Store} {f g owner : FrameId} {name : String} {value : Value} {d links : Nat}

/-- The frame `distance` links above `f` is there and binds the name. -/
def BoundAt (s : Store) (f : FrameId) (name : String) (distance : Nat) : Prop :=
  ∃ owner, s.frameAbove? f distance = some owner ∧ s.binds owner name = true

section Distance

theorem boundAt_zero : s.BoundAt f name 0 ↔ s.binds f name = true := by
  simp [BoundAt, frameAbove?]

/-- One link further up, the distance is one less. -/
theorem boundAt_succ {parent : FrameId} (hparent : s.parent? f = some parent) :
    s.BoundAt f name (d + 1) ↔ s.BoundAt parent name d := by
  have habove : s.frameAbove? f (d + 1) = s.frameAbove? parent d := by
    rw [frameAbove?, hparent]
    rfl
  rw [BoundAt, BoundAt, habove]

/-- What is read through a distance is read in the frame there. -/
theorem getAt?_of_frameAbove? (habove : s.frameAbove? f d = some owner) :
    s.getAt? f d name = s.read? owner name := by
  rw [getAt?, habove]
  rfl

/-- What is assigned through a distance is written in the frame there. -/
theorem assignAt_of_frameAbove? (habove : s.frameAbove? f d = some owner) :
    s.assignAt f d name value = s.write owner name value := by
  rw [assignAt, habove]

/-- Nothing is read where the name is not bound. -/
theorem getAt?_of_not_boundAt (h : ¬ s.BoundAt f name d) : s.getAt? f d name = none := by
  refine Option.eq_none_iff_forall_ne_some.mpr fun found hfound => ?_
  obtain ⟨owner, habove, hread⟩ := Option.bind_eq_some_iff.mp hfound
  exact h ⟨owner, habove, binds_iff.mpr ⟨found, hread⟩⟩

/-- Where a frame does not bind the name, an assignment at its distance changes nothing. -/
theorem assignAt_of_not_boundAt (h : ¬ s.BoundAt f name d) :
    s.assignAt f d name value = (false, s) := by
  cases habove : s.frameAbove? f d with
  | none => rw [assignAt, habove]
  | some owner =>
    rw [assignAt_of_frameAbove? habove]
    exact write_of_not_binds (Bool.eq_false_iff.mpr fun hbinds => h ⟨owner, habove, hbinds⟩)

end Distance

section Nearest

/-- The search stops at the nearest frame that binds the name, if it goes that far. -/
theorem owner?_of_isLeast (hleast : IsLeast {d | s.BoundAt f name d} d)
    (habove : s.frameAbove? f d = some owner) (hlinks : d < links) :
    s.owner? name links f = some owner := by
  induction d generalizing f links with
  | zero =>
    obtain ⟨links, rfl⟩ := Nat.exists_eq_succ_of_ne_zero (Nat.ne_of_gt hlinks)
    obtain rfl := Option.some.inj habove
    rw [owner?, if_pos (boundAt_zero.mp hleast.1)]
  | succ d ih =>
    obtain ⟨links, rfl⟩ := Nat.exists_eq_succ_of_ne_zero (Nat.ne_of_gt (Nat.zero_lt_of_lt hlinks))
    obtain ⟨parent, hparent, habove⟩ := frameAbove?_succ.mp habove
    have hfirst : ¬ s.binds f name = true := fun hbinds =>
      Nat.not_succ_le_zero d (hleast.2 (boundAt_zero.mpr hbinds))
    have hlater : IsLeast {d | s.BoundAt parent name d} d := by
      refine ⟨(boundAt_succ hparent).mp hleast.1, fun e he => ?_⟩
      exact Nat.le_of_succ_le_succ (hleast.2 ((boundAt_succ hparent).mpr he))
    rw [owner?, if_neg hfirst, hparent]
    exact ih hlater habove (Nat.lt_of_succ_lt_succ hlinks)

/-- The search finds no frame that does not bind the name. -/
theorem exists_boundAt_of_owner? (howner : s.owner? name links f = some owner) :
    ∃ d, s.BoundAt f name d := by
  induction links generalizing f with
  | zero => cases howner
  | succ links ih =>
    rw [owner?] at howner
    split at howner
    · rename_i hbinds
      exact ⟨0, boundAt_zero.mpr hbinds⟩
    · obtain ⟨parent, hparent, howner⟩ := Option.bind_eq_some_iff.mp howner
      obtain ⟨d, hbound⟩ := ih howner
      exact ⟨d + 1, (boundAt_succ hparent).mpr hbound⟩

/-- In a built store no chain is longer than the search. -/
theorem Built.owner?_of_isLeast (hs : s.Built) (hleast : IsLeast {d | s.BoundAt f name d} d)
    (habove : s.frameAbove? f d = some owner) : s.owner? name s.next f = some owner := by
  refine Store.owner?_of_isLeast hleast habove ?_
  cases d with
  | zero => exact Nat.zero_lt_of_lt (lt_next_of_binds (boundAt_zero.mp hleast.1))
  | succ d =>
    obtain ⟨parent, hparent, -⟩ := frameAbove?_succ.mp habove
    calc d + 1 ≤ owner + (d + 1) := Nat.le_add_left _ _
      _ ≤ f := hs.descending.add_le habove
      _ < s.next := lt_next_of_parent? hparent

/-- The search finds nothing if no frame on the chain binds the name. -/
theorem owner?_of_unbound (hnone : ∀ d, ¬ s.BoundAt f name d) : s.owner? name links f = none := by
  refine Option.eq_none_iff_forall_ne_some.mpr fun owner howner => ?_
  obtain ⟨d, hbound⟩ := exists_boundAt_of_owner? howner
  exact hnone d hbound

/-- A name that no frame on the chain binds has no value. -/
theorem get?_of_unbound (hnone : ∀ d, ¬ s.BoundAt f name d) : s.get? f name = none := by
  rw [get?, owner?_of_unbound hnone]
  rfl

/-- An assignment to such a name changes nothing. -/
theorem assign_of_unbound (hnone : ∀ d, ¬ s.BoundAt f name d) :
    s.assign f name value = (false, s) := by
  rw [assign, owner?_of_unbound hnone]

end Nearest

/-- One binding has the value in the second store, and nothing else is different there. -/
structure Updated (s t : Store) (owner : FrameId) (name : String) (value : Value) : Prop where
  bound : s.binds owner name = true
  value : t.read? owner name = some value
  names : ∀ other ≠ name, t.read? owner other = s.read? owner other
  link : t.parent? owner = s.parent? owner
  frames : ∀ f ≠ owner, t.frame? f = s.frame? f
  next : t.next = s.next

/-- A write is one change to the binding that was there. -/
theorem updated_define (hbinds : s.binds owner name = true) :
    s.Updated (s.define owner name value) owner name value where
  bound := hbinds
  value := by rw [read?_define_eq, if_pos ⟨rfl, rfl, lt_next_of_binds hbinds⟩]
  names other hother := by rw [read?_define_eq, if_neg fun h => hother h.2.1.symm]
  link := parent?_define s owner owner name value
  frames f hf := by rw [frame?_define, if_neg (Ne.symm hf)]
  next := next_define s owner name value

/-- An assignment through a distance leaves all other frames as they are. -/
theorem frame?_assignAt_of_ne (h : s.frameAbove? f d ≠ some g) :
    (s.assignAt f d name value).2.frame? g = s.frame? g := by
  cases habove : s.frameAbove? f d with
  | none => rw [assignAt, habove]
  | some owner =>
    rw [assignAt_of_frameAbove? habove]
    exact frame?_write_of_ne fun heq => h (heq ▸ habove)

/-- A write asks nothing but the frame that it is to. -/
theorem write_congr (hframe : t.frame? owner = s.frame? owner) :
    (t.write owner name value).1 = (s.write owner name value).1 ∧
      (t.write owner name value).2.frame? owner = (s.write owner name value).2.frame? owner := by
  have hbinds : t.binds owner name = s.binds owner name := by rw [binds, hframe, binds]
  unfold write
  rw [hbinds]
  split
  · exact ⟨rfl, by rw [frame?_define, frame?_define, hframe]⟩
  · exact ⟨rfl, hframe⟩

/-- The frame `distance` links above `f` and the links that lead there are the same in both stores.
    The other frames may bind what they like. -/
structure SameAbove (s t : Store) (f : FrameId) (distance : Nat) : Prop where
  links : ∀ i < distance, ∀ g, s.frameAbove? f i = some g → t.parent? g = s.parent? g
  frame : ∀ g, s.frameAbove? f distance = some g → t.frame? g = s.frame? g

namespace SameAbove

/-- Whatever lies below the distance, the same frame is found there. -/
theorem frameAbove? (h : s.SameAbove t f d) : t.frameAbove? f d = s.frameAbove? f d := by
  induction d generalizing f with
  | zero => rfl
  | succ d ih =>
    rw [Store.frameAbove?, Store.frameAbove?, h.links 0 (Nat.zero_lt_succ d) f rfl]
    cases hparent : s.parent? f with
    | none => rfl
    | some parent =>
      refine ih ⟨fun i hi g hg => ?_, fun g hg => ?_⟩
      · exact h.links (i + 1) (Nat.succ_lt_succ hi) g (frameAbove?_succ.mpr ⟨parent, hparent, hg⟩)
      · exact h.frame g (frameAbove?_succ.mpr ⟨parent, hparent, hg⟩)

/-- Stores that are the same above a frame have the same value there. -/
theorem getAt? (h : s.SameAbove t f d) : t.getAt? f d name = s.getAt? f d name := by
  unfold Store.getAt?
  rw [h.frameAbove?]
  refine Option.bind_congr fun owner habove => ?_
  rw [read?, h.frame owner habove, read?]

/-- An assignment writes to the same frame in both. -/
theorem assignAt (h : s.SameAbove t f d) :
    (t.assignAt f d name value).1 = (s.assignAt f d name value).1 ∧
      ∀ owner, s.frameAbove? f d = some owner →
        (t.assignAt f d name value).2.frame? owner =
          (s.assignAt f d name value).2.frame? owner := by
  cases habove : s.frameAbove? f d with
  | none =>
    have habove' : t.frameAbove? f d = none := h.frameAbove?.trans habove
    rw [Store.assignAt, Store.assignAt, habove, habove']
    exact ⟨rfl, fun _ howner => by cases howner⟩
  | some owner =>
    obtain ⟨hdone, hframe⟩ := write_congr (h.frame owner habove)
    rw [assignAt_of_frameAbove? habove, assignAt_of_frameAbove? (h.frameAbove?.trans habove)]
    refine ⟨hdone, fun g hg => ?_⟩
    obtain rfl := Option.some.inj hg
    exact hframe

end SameAbove

end Store

/-- Where the search for a reference begins: in the current frame if its distance is known, and in
    the globals if not. -/
def Machine.origin (m : Machine) (ref : RefId) : FrameId :=
  m.distances[ref]?.elim m.globals fun _ => m.environment

section Origin

variable {m : Machine} {ref : RefId} {distance : Nat}

theorem Machine.origin_of_none (h : m.distances[ref]? = none) : m.origin ref = m.globals := by
  rw [origin, h]
  rfl

theorem Machine.origin_of_some (h : m.distances[ref]? = some distance) :
    m.origin ref = m.environment := by
  rw [origin, h]
  rfl

end Origin

namespace Step

variable {m m' : Machine} {ref : RefId} {name : Token} {value : Value} {stop : Stop}

/-- A name that no frame on the chain binds is undefined, at whatever distance it is looked for. -/
theorem lookUp_of_unbound (hnone : ∀ d, ¬ m.store.BoundAt (m.origin ref) name.lexeme d) :
    lookUp ref name m = .error (.error ⟨name, .undefined name.lexeme⟩) m := by
  cases hentry : m.distances[ref]? with
  | none =>
    rw [Machine.origin_of_none hentry] at hnone
    rw [lookUp_of_none hentry, Store.get?_of_unbound hnone]
    rfl
  | some distance =>
    rw [Machine.origin_of_some hentry] at hnone
    rw [lookUp_of_some hentry, Store.getAt?_of_not_boundAt (hnone distance)]
    rfl

/-- An assignment to a name that nothing binds fails, at its own token. -/
theorem assign_of_unbound (hnone : ∀ d, ¬ m.store.BoundAt (m.origin ref) name.lexeme d) :
    assign ref name value m = .error (.error ⟨name, .undefined name.lexeme⟩) m := by
  cases hentry : m.distances[ref]? with
  | none =>
    rw [Machine.origin_of_none hentry] at hnone
    rw [assign_of_none hentry, Store.assign_of_unbound hnone]
    rfl
  | some distance =>
    rw [Machine.origin_of_some hentry] at hnone
    rw [assign_of_some hentry, Store.assignAt_of_not_boundAt (hnone distance)]
    rfl

/-- A read fails for one reason only, as an assignment does; either leaves the machine alone. -/
theorem of_lookUp_error (h : lookUp ref name m = .error stop m') :
    stop = .error ⟨name, .undefined name.lexeme⟩ ∧ m' = m := by
  have hreading {found : Option Value} (hlookUp : lookUp ref name m = reading name found m) :
      stop = .error ⟨name, .undefined name.lexeme⟩ ∧ m' = m := by
    rw [hlookUp] at h
    cases found with
    | some value => cases h
    | none =>
      cases h
      exact ⟨rfl, rfl⟩
  cases hentry : m.distances[ref]? with
  | none => exact hreading (lookUp_of_none hentry name)
  | some distance => exact hreading (lookUp_of_some hentry name)

/-- Every assignment is a write to one frame, or fails for want of one. -/
theorem exists_assign_eq_writing (ref : RefId) (name : Token) (value : Value) (m : Machine) :
    ∃ g, assign ref name value m = writing name (m.store.write g name.lexeme value) m := by
  cases hentry : m.distances[ref]? with
  | none =>
    obtain ⟨g, hg⟩ := m.store.exists_assign_eq_write m.globals name.lexeme value
    exact ⟨g, by rw [assign_of_none hentry, hg]⟩
  | some distance =>
    obtain ⟨g, hg⟩ := m.store.exists_assignAt_eq_write m.environment distance name.lexeme value
    exact ⟨g, by rw [assign_of_some hentry, hg]⟩

/-- An assignment fails for one reason only, and then leaves the machine alone. -/
theorem of_assign_error (h : assign ref name value m = .error stop m') :
    stop = .error ⟨name, .undefined name.lexeme⟩ ∧ m' = m := by
  obtain ⟨g, hassign⟩ := exists_assign_eq_writing ref name value m
  rw [hassign] at h
  unfold Store.write writing at h
  split at h
  · cases h
  · cases h
    exact ⟨rfl, rfl⟩

end Step

namespace Store

/-- The two ways to a binding agree in every store that was built frame by frame. From any frame,
    the search along the chain ends at the least distance at which a frame binds the name: both ways
    read the same value there, and give that one binding another value and change nothing else. If
    there is no such distance, both ways fail, whatever the distance, and the name is undefined at
    its own token. Whenever a read or an assignment fails, the name is undefined and the machine is
    left as it was. What is done at a distance depends on the frame there and on the links to it,
    and touches no other frame. Neither kind of assignment binds a name anywhere. -/
theorem ways_agree {s : Store} (hs : s.Built) (f : FrameId) (name : Token) (value : Value) :
    (∀ d, IsLeast {d | s.BoundAt f name.lexeme d} d →
      ∃ owner found t, s.frameAbove? f d = some owner ∧ s.read? owner name.lexeme = some found ∧
        s.get? f name.lexeme = some found ∧ s.getAt? f d name.lexeme = some found ∧
        s.assign f name.lexeme value = (true, t) ∧ s.assignAt f d name.lexeme value = (true, t) ∧
        s.Updated t owner name.lexeme value) ∧
    ((∀ d, ¬ s.BoundAt f name.lexeme d) →
      s.get? f name.lexeme = none ∧ s.assign f name.lexeme value = (false, s) ∧
        (∀ e, s.getAt? f e name.lexeme = none ∧
          s.assignAt f e name.lexeme value = (false, s)) ∧
        ∀ m ref, m.store = s → m.origin ref = f →
          Step.lookUp ref name m = .error (.error ⟨name, .undefined name.lexeme⟩) m ∧
            Step.assign ref name value m = .error (.error ⟨name, .undefined name.lexeme⟩) m) ∧
    (∀ m ref stop m',
      Step.lookUp ref name m = .error stop m' ∨ Step.assign ref name value m = .error stop m' →
        stop = .error ⟨name, .undefined name.lexeme⟩ ∧ m' = m) ∧
    (∀ e, (∀ t, s.SameAbove t f e →
        t.getAt? f e name.lexeme = s.getAt? f e name.lexeme ∧
          (t.assignAt f e name.lexeme value).1 = (s.assignAt f e name.lexeme value).1 ∧
          ∀ owner, s.frameAbove? f e = some owner →
            (t.assignAt f e name.lexeme value).2.frame? owner =
              (s.assignAt f e name.lexeme value).2.frame? owner) ∧
      ∀ g, s.frameAbove? f e ≠ some g →
        (s.assignAt f e name.lexeme value).2.frame? g = s.frame? g) ∧
    ∀ g other, (s.assign f name.lexeme value).2.binds g other = s.binds g other ∧
      ∀ e, (s.assignAt f e name.lexeme value).2.binds g other = s.binds g other := by
  refine ⟨fun d hleast => ?_, fun hnone => ?_, fun m ref stop m' hfails => ?_, fun e => ?_,
    fun g other => ⟨?_, fun e => ?_⟩⟩
  · obtain ⟨owner, habove, hbinds⟩ := hleast.1
    obtain ⟨found, hread⟩ := binds_iff.mp hbinds
    have howner := hs.owner?_of_isLeast hleast habove
    have hwrite : s.write owner name.lexeme value = (true, _) := write_of_binds hbinds
    refine ⟨owner, found, _, habove, hread, ?_, ?_, ?_, ?_, updated_define hbinds⟩
    · rw [get?, howner]
      exact hread
    · rw [getAt?_of_frameAbove? habove, hread]
    · rw [assign, howner]
      exact hwrite
    · rw [assignAt_of_frameAbove? habove, hwrite]
  · refine ⟨get?_of_unbound hnone, assign_of_unbound hnone, fun e =>
      ⟨getAt?_of_not_boundAt (hnone e), assignAt_of_not_boundAt (hnone e)⟩, ?_⟩
    rintro m ref rfl rfl
    exact ⟨Step.lookUp_of_unbound hnone, Step.assign_of_unbound hnone⟩
  · exact hfails.elim Step.of_lookUp_error Step.of_assign_error
  · exact ⟨fun t hsame => ⟨hsame.getAt?, hsame.assignAt⟩, fun g => frame?_assignAt_of_ne⟩
  · obtain ⟨owner, hwrite⟩ := s.exists_assign_eq_write f name.lexeme value
    rw [hwrite, binds_write]
  · obtain ⟨owner, hwrite⟩ := s.exists_assignAt_eq_write f e name.lexeme value
    rw [hwrite, binds_write]

/-- Globals with an `a`, a frame in front of them with an `a` of its own, and an empty one. -/
def shadowed : Store :=
  let globals := (empty.push (.empty none)).define 0 "a" .nil
  ((globals.push (.empty (some 0))).define 1 "a" (.bool true)).push (.empty (some 1))

theorem built_shadowed : shadowed.Built := by
  have hglobals : ((empty.push (.empty none)).define 0 "a" .nil).Built :=
    (Relation.ReflTransGen.single (.create fun _ h => by cases h)).tail (.define 0 "a" .nil)
  refine ((hglobals.tail (.create ?_)).tail (.define 1 "a" (.bool true))).tail (.create ?_)
  · rintro _ ⟨⟩
    decide
  · rintro _ ⟨⟩
    decide

theorem isLeast_shadowed : IsLeast {d | shadowed.BoundAt 2 "a" d} 1 := by
  refine ⟨⟨1, rfl, by decide +kernel⟩, fun d hbound => Nat.one_le_iff_ne_zero.mpr ?_⟩
  rintro rfl
  have hfirst : shadowed.binds 2 "a" = false := by decide +kernel
  rw [boundAt_zero.mp hbound] at hfirst
  cases hfirst

theorem not_boundAt_shadowed (d : Nat) : ¬ shadowed.BoundAt 2 "b" d := by
  rintro ⟨owner, -, hbinds⟩
  have hlt : owner < 3 := lt_next_of_binds hbinds
  interval_cases owner
  all_goals exact absurd hbinds (by decide +kernel)

/-- A machine in the empty frame, with a reference at distance 1. -/
def shadowedMachine : Machine :=
  { Machine.start fun _ => 0 with
    store := shadowed, environment := 2, distances := (∅ : Distances).insert 0 1 }

theorem ways_agree_shadowed :
    shadowed.Built ∧ IsLeast {d | shadowed.BoundAt 2 "a" d} 1 ∧
      shadowed.get? 2 "a" = some (.bool true) ∧ shadowed.getAt? 2 1 "a" = some (.bool true) ∧
      (∃ t, shadowed.assign 2 "a" .nil = (true, t) ∧ shadowed.assignAt 2 1 "a" .nil = (true, t) ∧
        shadowed.Updated t 1 "a" .nil) ∧
      (∀ d, ¬ shadowed.BoundAt 2 "b" d) ∧
      Step.assign 0 ⟨.identifier, "b", 1, 0⟩ .nil shadowedMachine =
        .error (.error ⟨⟨.identifier, "b", 1, 0⟩, .undefined "b"⟩) shadowedMachine := by
  obtain ⟨hnearest, -⟩ := ways_agree built_shadowed 2 ⟨.identifier, "a", 1, 0⟩ .nil
  obtain ⟨owner, found, t, howner, hread, hget, hgetAt, hassign, hassignAt, hupdated⟩ :=
    hnearest 1 isLeast_shadowed
  obtain rfl : 1 = owner := Option.some.inj howner
  obtain rfl : .bool true = found := Option.some.inj hread
  obtain ⟨-, hnone, -⟩ := ways_agree built_shadowed 2 ⟨.identifier, "b", 1, 0⟩ .nil
  obtain ⟨-, -, -, hfails⟩ := hnone not_boundAt_shadowed
  have horigin : shadowedMachine.origin 0 = 2 := by decide +kernel
  exact ⟨built_shadowed, isLeast_shadowed, hget, hgetAt,
    ⟨t, hassign, hassignAt, hupdated⟩, not_boundAt_shadowed,
    (hfails shadowedMachine 0 rfl horigin).2⟩

end Store

end Lox

import Mathlib.Tactic
import Lox.Store

/-!
How a store grows. New frames come behind the old ones, and a binding once made stays, so what is
known about a frame stays known while a program runs. The frames that enclose a frame form its
chain, from the frame itself up to one that is enclosed by none; a chain changes only with a new
frame.
-/

namespace Lox

namespace Frame

/-- A definition binds its own name and no other. -/
@[simp]
theorem binds_define (frame : Frame) (name other : String) (value : Value) :
    (frame.define name value).binds other = (name == other || frame.binds other) := by
  simp [binds, define, Std.TreeMap.contains_insert, beq_eq_decide]

theorem get?_define (frame : Frame) (name other : String) (value : Value) :
    (frame.define name value).get? other =
      if name = other then some value else frame.get? other := by
  simp [get?, define, Std.TreeMap.getElem?_insert]

theorem binds_iff (frame : Frame) (name : String) :
    frame.binds name = true ↔ ∃ value, frame.get? name = some value := by
  rw [binds, get?, Std.TreeMap.contains_eq_isSome_getElem?, Option.isSome_iff_exists]

variable {frame : Frame} {name : String} {bindings : List (String × Value)}

/-- Definitions do not move a frame. -/
theorem enclosing_foldl_define :
    (bindings.foldl (fun f b => f.define b.1 b.2) frame).enclosing = frame.enclosing := by
  induction bindings generalizing frame with
  | nil => rfl
  | cons b bindings ih => exact ih

/-- A frame binds what it bound before and the names that are defined in it. -/
theorem binds_foldl_define :
    (bindings.foldl (fun f b => f.define b.1 b.2) frame).binds name ↔
      (∃ b ∈ bindings, b.1 = name) ∨ frame.binds name := by
  induction bindings generalizing frame with
  | nil => simp
  | cons b bindings ih =>
    rw [List.foldl_cons, ih]
    simp only [binds_define, Bool.or_eq_true, beq_iff_eq, List.mem_cons, exists_eq_or_imp]
    rw [or_left_comm, or_assoc]

/-- Whatever is read there was there before or has just been defined. -/
theorem get?_foldl_define {value : Value}
    (h : (bindings.foldl (fun f b => f.define b.1 b.2) frame).get? name = some value) :
    (∃ b ∈ bindings, b.2 = value) ∨ frame.get? name = some value := by
  induction bindings generalizing frame with
  | nil => exact .inr h
  | cons b bindings ih =>
    simp only [List.mem_cons, exists_eq_or_imp]
    rcases ih h with hlater | hfirst
    · exact .inl (.inr hlater)
    · rw [get?_define] at hfirst
      split at hfirst
      · exact .inl (.inl (Option.some.inj hfirst))
      · exact .inr hfirst

end Frame

namespace Store

variable {s : Store} {f g : FrameId} {name other : String} {value : Value} {frame : Frame}

/-- A frame with a link is there. -/
theorem lt_next_of_parent? {parent : FrameId} (h : s.parent? f = some parent) : f < s.next := by
  obtain ⟨frame, hframe, -⟩ := Option.bind_eq_some_iff.mp h
  exact (Array.getElem?_eq_some_iff.mp hframe).1

/-- A frame that binds a name is there. -/
theorem lt_next_of_binds (h : s.binds f name) : f < s.next := by
  unfold binds at h
  split at h
  · rename_i frame hframe
    exact (Array.getElem?_eq_some_iff.mp hframe).1
  · cases h

/-- A name is bound just where it can be read. -/
theorem binds_iff : s.binds f name = true ↔ ∃ value, s.read? f name = some value := by
  unfold binds read?
  cases s.frame? f with
  | none => simp
  | some frame => exact frame.binds_iff name

section Push

/-- Nothing but the new frame is new. -/
theorem frame?_push : (s.push frame).frame? f = if f = s.next then some frame else s.frame? f := by
  simp only [frame?, push, next, Array.getElem?_push]
  rfl

@[simp]
theorem next_push : (s.push frame).next = s.next + 1 := by
  simp [next, push]

theorem parent?_push_next : (s.push frame).parent? s.next = frame.enclosing := by
  simp [parent?, frame?_push]

theorem parent?_push (hf : f < s.next) : (s.push frame).parent? f = s.parent? f := by
  simp [parent?, frame?_push, Nat.ne_of_lt hf]

theorem binds_push_next : (s.push frame).binds s.next name = frame.binds name := by
  simp [binds, frame?_push]

theorem binds_push (hf : f < s.next) : (s.push frame).binds f name = s.binds f name := by
  simp [binds, frame?_push, Nat.ne_of_lt hf]

theorem read?_push :
    (s.push frame).read? f name = if f = s.next then frame.get? name else s.read? f name := by
  unfold read?
  rw [frame?_push]
  split <;> rfl

/-- A new frame may have its first bindings before it is there. -/
theorem define_push :
    (s.push frame).define s.next name value = s.push (frame.define name value) := by
  unfold define push next
  congr 1
  refine Array.ext_getElem? fun i => ?_
  rw [Array.getElem?_modify, Array.getElem?_push, Array.getElem?_push]
  by_cases hnew : i = s.frames.size
  · simp [hnew]
  · simp [hnew, Ne.symm hnew]

end Push

section Define

/-- A definition in one frame binds nothing in any other. -/
theorem binds_define :
    (s.define f name value).binds g other =
      (s.binds g other || (f == g && name == other && (s.frame? g).isSome)) := by
  unfold binds
  rw [frame?_define]
  by_cases hframe : f = g
  · subst hframe
    cases s.frame? f with
    | none => simp
    | some frame => simp [Bool.or_comm]
  · simp [hframe]

/-- A definition changes what is read of its name in its frame, if that is there. -/
theorem read?_define_eq : (s.define f name value).read? g other =
    if f = g ∧ name = other ∧ f < s.next then some value else s.read? g other := by
  unfold read?
  rw [frame?_define]
  by_cases hframe : f = g
  · subst hframe
    by_cases hlt : f < s.next
    · obtain ⟨frame, hfound⟩ : ∃ frame, s.frame? f = some frame :=
        ⟨_, Array.getElem?_eq_getElem hlt⟩
      simp [hfound, hlt, Frame.get?_define]
    · have hnone : s.frame? f = none := Array.getElem?_eq_none (Nat.le_of_not_lt hlt)
      simp [hnone, hlt]
  · simp [hframe]

/-- A value that is read was there before or has just been defined. -/
theorem read?_define {found : Value} (h : (s.define f name value).read? g other = some found) :
    found = value ∨ s.read? g other = some found := by
  rw [read?_define_eq] at h
  split at h
  · exact .inl (Option.some.inj h).symm
  · exact .inr h

end Define

section Root

/-- A frame without a parent is searched alone. -/
theorem owner?_of_root (hroot : s.parent? f = none) (hf : f < s.next) :
    s.owner? name s.next f = if s.binds f name then some f else none := by
  obtain ⟨links, hlinks⟩ : ∃ links, s.next = links + 1 :=
    Nat.exists_eq_succ_of_ne_zero (Nat.ne_of_gt (Nat.lt_of_le_of_lt (Nat.zero_le f) hf))
  rw [hlinks, owner?, hroot]
  rfl

/-- The search from a frame that none encloses ends in that frame. -/
theorem get?_of_root (hroot : s.parent? f = none) (hf : f < s.next) :
    s.get? f name = s.read? f name := by
  rw [get?, owner?_of_root hroot hf]
  cases hbinds : s.binds f name with
  | true => rfl
  | false =>
    cases hread : s.read? f name with
    | none => rfl
    | some value => simp [binds_iff.mpr ⟨value, hread⟩] at hbinds

end Root

section Chain

/-- The frame `g` lies on the chain of `f`. -/
def OnChain (s : Store) (f g : FrameId) : Prop :=
  ∃ links, s.frameAbove? f links = some g

variable {s' : Store} {h : FrameId} {i j : Nat}

/-- The first link leads to the enclosing frame. -/
theorem frameAbove?_succ {links : Nat} :
    s.frameAbove? f (links + 1) = some g ↔
      ∃ parent, s.parent? f = some parent ∧ s.frameAbove? parent links = some g := by
  rw [frameAbove?, Option.bind_eq_some_iff]

/-- Links may be followed in two parts. -/
theorem frameAbove?_add (hi : s.frameAbove? f i = some g) :
    s.frameAbove? f (i + j) = s.frameAbove? g j := by
  induction i generalizing f with
  | zero =>
    obtain rfl := Option.some.inj hi
    rw [Nat.zero_add]
  | succ i ih =>
    obtain ⟨parent, hparent, hi⟩ := frameAbove?_succ.mp hi
    rw [Nat.succ_add, frameAbove?, hparent]
    exact ih hi

/-- A frame that is enclosed by none is met once on a chain. -/
theorem links_eq_of_root (hroot : s.parent? g = none) (hi : s.frameAbove? f i = some g)
    (hj : s.frameAbove? f j = some g) : i = j := by
  wlog hle : i ≤ j generalizing i j
  · exact (this hj hi (Nat.le_of_not_le hle)).symm
  obtain ⟨k, rfl⟩ := Nat.exists_eq_add_of_le hle
  rw [frameAbove?_add hi] at hj
  cases k with
  | zero => rfl
  | succ k =>
    obtain ⟨parent, hparent, -⟩ := frameAbove?_succ.mp hj
    rw [hroot] at hparent
    cases hparent

/-- A link more leads to another frame, if the chain comes to an end at all. -/
theorem links_eq_of_end {k l : Nat} (hroot : s.parent? h = none)
    (hf : s.frameAbove? f k = some h) (hi : s.frameAbove? f i = some g)
    (hg : s.frameAbove? g l = some h) : k = i + l :=
  links_eq_of_root hroot hf ((frameAbove?_add hi).trans hg)

/-- Where links stay, they lead where they led. -/
theorem frameAbove?_mono (hparents : ∀ f g, s.parent? f = some g → s'.parent? f = some g)
    (hi : s.frameAbove? f i = some g) : s'.frameAbove? f i = some g := by
  induction i generalizing f with
  | zero => exact hi
  | succ i ih =>
    obtain ⟨parent, hparent, hi⟩ := frameAbove?_succ.mp hi
    exact frameAbove?_succ.mpr ⟨parent, hparents f parent hparent, ih hi⟩

namespace OnChain

theorem refl : s.OnChain f f :=
  ⟨0, rfl⟩

/-- The chain of a frame has the chains of all frames on it. -/
theorem trans (hfg : s.OnChain f g) (hgh : s.OnChain g h) : s.OnChain f h := by
  obtain ⟨i, hi⟩ := hfg
  obtain ⟨j, hj⟩ := hgh
  exact ⟨i + j, (frameAbove?_add hi).trans hj⟩

theorem of_parent? {parent : FrameId} (hparent : s.parent? f = some parent)
    (hg : s.OnChain parent g) : s.OnChain f g := by
  obtain ⟨i, hi⟩ := hg
  exact ⟨i + 1, frameAbove?_succ.mpr ⟨parent, hparent, hi⟩⟩

/-- A frame stays on a chain as long as links do. -/
theorem mono (hparents : ∀ f g, s.parent? f = some g → s'.parent? f = some g)
    (hg : s.OnChain f g) : s'.OnChain f g := by
  obtain ⟨i, hi⟩ := hg
  exact ⟨i, frameAbove?_mono hparents hi⟩

/-- The chain of a frame that is enclosed by none is the frame alone. -/
theorem eq_of_root (hroot : s.parent? f = none) (hg : s.OnChain f g) : g = f := by
  obtain ⟨_ | i, hi⟩ := hg
  · exact (Option.some.inj hi).symm
  · obtain ⟨parent, hparent, -⟩ := frameAbove?_succ.mp hi
    rw [hroot] at hparent
    cases hparent

/-- A frame that does not enclose the new frame comes to lie on no further chain. -/
theorem of_push {frame : Frame}
    (henclosing : ∀ parent, frame.enclosing = some parent → ¬ s.OnChain parent g)
    (hchain : (s.push frame).OnChain f g) : s.OnChain f g := by
  obtain ⟨i, hi⟩ := hchain
  induction i generalizing f with
  | zero => exact ⟨0, hi⟩
  | succ i ih =>
    obtain ⟨parent, hparent, hi⟩ := frameAbove?_succ.mp hi
    have hchain := ih hi
    by_cases hnew : f = s.next
    · subst hnew
      rw [parent?_push_next] at hparent
      exact absurd hchain (henclosing parent hparent)
    · have hold : (s.push frame).parent? f = s.parent? f := by
        simp [parent?, frame?_push, hnew]
      exact of_parent? (hold.symm.trans hparent) hchain

end OnChain

/-- Chains depend on links alone. -/
theorem onChain_congr (hparents : ∀ f, s'.parent? f = s.parent? f) :
    s'.OnChain f g ↔ s.OnChain f g :=
  ⟨.mono fun f _ hparent => (hparents f).symm.trans hparent,
    .mono fun f _ hparent => (hparents f).trans hparent⟩

/-- The search finds a frame on the chain. -/
theorem onChain_of_owner? {links : Nat} (howner : s.owner? name links f = some g) :
    s.OnChain f g := by
  induction links generalizing f with
  | zero => cases howner
  | succ links ih =>
    rw [owner?] at howner
    split at howner
    · obtain rfl := Option.some.inj howner
      exact .refl
    · obtain ⟨parent, hparent, howner⟩ := Option.bind_eq_some_iff.mp howner
      exact .of_parent? hparent (ih howner)

end Chain

section Write

theorem write_of_binds (h : s.binds f name = true) :
    s.write f name value = (true, s.define f name value) :=
  if_pos h

/-- Nothing is written where the name is not bound. -/
theorem write_of_not_binds (h : s.binds f name = false) : s.write f name value = (false, s) := by
  simp [write, h]

/-- There is nothing to write to behind the last frame. -/
theorem write_next : s.write s.next name value = (false, s) := by
  refine write_of_not_binds (Bool.eq_false_iff.mpr fun hbinds => ?_)
  exact Nat.lt_irrefl _ (lt_next_of_binds hbinds)

@[simp]
theorem next_write : (s.write f name value).2.next = s.next := by
  unfold write
  split <;> simp

@[simp]
theorem parent?_write : (s.write f name value).2.parent? g = s.parent? g := by
  unfold write
  split <;> simp

/-- A write to one frame leaves the others as they are. -/
theorem frame?_write_of_ne (h : f ≠ g) : (s.write f name value).2.frame? g = s.frame? g := by
  unfold write
  split
  · rw [frame?_define, if_neg h]
  · rfl

/-- A value that is read was there before or has just been written. -/
theorem read?_write {found : Value} (h : (s.write f name value).2.read? g other = some found) :
    found = value ∨ s.read? g other = some found := by
  unfold write at h
  split at h
  · exact read?_define h
  · exact .inr h

/-- Whichever way a variable is found, at most one binding is written, and that on the chain. -/
theorem assign_eq :
    (∃ g, s.OnChain f g ∧ s.assign f name value = s.write g name value) ∨
      s.assign f name value = (false, s) := by
  unfold assign
  cases howner : s.owner? name s.next f with
  | none => exact .inr rfl
  | some g => exact .inl ⟨g, onChain_of_owner? howner, rfl⟩

/-- An assignment through a distance writes to a frame on the chain, if to any. -/
theorem assignAt_eq {distance : Nat} :
    (∃ g, s.OnChain f g ∧ s.assignAt f distance name value = s.write g name value) ∨
      s.assignAt f distance name value = (false, s) := by
  unfold assignAt
  cases habove : s.frameAbove? f distance with
  | none => exact .inr rfl
  | some g => exact .inl ⟨g, ⟨distance, habove⟩, rfl⟩

/-- Every assignment is a write to one frame. If it finds none, this is one that is not there. -/
theorem exists_assign_eq_write (s : Store) (f : FrameId) (name : String) (value : Value) :
    ∃ g, s.assign f name value = s.write g name value := by
  obtain ⟨g, -, h⟩ | h := @assign_eq s f name value
  · exact ⟨g, h⟩
  · exact ⟨s.next, h.trans write_next.symm⟩

/-- Every assignment through a distance is a write to one frame, even if it finds none. -/
theorem exists_assignAt_eq_write (s : Store) (f : FrameId) (distance : Nat) (name : String)
    (value : Value) : ∃ g, s.assignAt f distance name value = s.write g name value := by
  obtain ⟨g, -, h⟩ | h := @assignAt_eq s f name value distance
  · exact ⟨g, h⟩
  · exact ⟨s.next, h.trans write_next.symm⟩

/-- A name is assigned to in a frame without a parent if that frame binds it. -/
theorem assign_of_root (hroot : s.parent? f = none) (hf : f < s.next) :
    s.assign f name value = s.write f name value := by
  rw [assign, owner?_of_root hroot hf]
  cases hbinds : s.binds f name with
  | true => rfl
  | false => simp [write, hbinds]

end Write

end Store

end Lox

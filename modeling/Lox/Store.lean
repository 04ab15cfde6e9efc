import Lox.Value
import Std.Data.TreeMap

/-!
Frames and their chains. A frame binds names to values and may be enclosed by an older frame. The
store keeps every frame that was ever made, so a frame's number never changes what it stands for.

There are two ways to reach a binding: along the chain to the first frame that has the name, or in
the frame that lies a known number of links up, and in no other. Neither makes a new binding.
-/

namespace Lox

structure Frame where
  bindings : Std.TreeMap String Value
  enclosing : Option FrameId

namespace Frame

def empty (enclosing : Option FrameId) : Frame :=
  ⟨∅, enclosing⟩

def get? (f : Frame) (name : String) : Option Value :=
  f.bindings[name]?

def binds (f : Frame) (name : String) : Bool :=
  f.bindings.contains name

/-- Binds a name, whether or not it was bound before. -/
def define (f : Frame) (name : String) (value : Value) : Frame :=
  { f with bindings := f.bindings.insert name value }

end Frame

structure Store where
  frames : Array Frame

namespace Store

def empty : Store := ⟨#[]⟩

def frame? (s : Store) (f : FrameId) : Option Frame :=
  s.frames[f]?

/-- The number of the next new frame. -/
def next (s : Store) : FrameId :=
  s.frames.size

def push (s : Store) (frame : Frame) : Store :=
  ⟨s.frames.push frame⟩

def define (s : Store) (f : FrameId) (name : String) (value : Value) : Store :=
  ⟨s.frames.modify f (·.define name value)⟩

def parent? (s : Store) (f : FrameId) : Option FrameId :=
  (s.frame? f).bind (·.enclosing)

/-- The frame exactly `distance` links above `f`. -/
def frameAbove? (s : Store) (f : FrameId) : Nat → Option FrameId
  | 0 => some f
  | distance + 1 => (s.parent? f).bind fun parent => s.frameAbove? parent distance

def binds (s : Store) (f : FrameId) (name : String) : Bool :=
  match s.frame? f with
  | some frame => frame.binds name
  | none => false

/-- The first frame that binds `name` among the first `links` frames of the chain of `f`. -/
def owner? (s : Store) (name : String) : Nat → FrameId → Option FrameId
  | 0, _ => none
  | links + 1, f =>
    if s.binds f name then some f
    else (s.parent? f).bind (s.owner? name links)

/-- The value of a name in one frame. -/
def read? (s : Store) (f : FrameId) (name : String) : Option Value :=
  (s.frame? f).bind (·.get? name)

/-- Changes the value of a name that one frame already binds, and tells whether it does. -/
def write (s : Store) (f : FrameId) (name : String) (value : Value) : Bool × Store :=
  if s.binds f name then (true, s.define f name value) else (false, s)

/-- Looks a name up along the chain of `f`, which has no more frames than the store. -/
def get? (s : Store) (f : FrameId) (name : String) : Option Value :=
  (s.owner? name s.next f).bind (s.read? · name)

/-- Changes the nearest binding of a name on the chain of `f`, if there is one. -/
def assign (s : Store) (f : FrameId) (name : String) (value : Value) : Bool × Store :=
  match s.owner? name s.next f with
  | some owner => s.write owner name value
  | none => (false, s)

/-- Looks a name up in the frame `distance` links above `f` only. -/
def getAt? (s : Store) (f : FrameId) (distance : Nat) (name : String) : Option Value :=
  (s.frameAbove? f distance).bind (s.read? · name)

/-- Changes the binding of a name in the frame `distance` links above `f`, if that frame has it. -/
def assignAt (s : Store) (f : FrameId) (distance : Nat) (name : String) (value : Value) :
    Bool × Store :=
  match s.frameAbove? f distance with
  | some owner => s.write owner name value
  | none => (false, s)

/-- A definition changes one frame and no other. -/
theorem frame?_define (s : Store) (f g : FrameId) (name : String) (value : Value) :
    (s.define f name value).frame? g =
      if f = g then (s.frame? g).map (·.define name value) else s.frame? g := by
  simp only [frame?, define, Array.getElem?_modify]

@[simp]
theorem next_define (s : Store) (f : FrameId) (name : String) (value : Value) :
    (s.define f name value).next = s.next := by
  simp [next, define]

/-- Binding a name moves no frame. -/
@[simp]
theorem parent?_define (s : Store) (f g : FrameId) (name : String) (value : Value) :
    (s.define f name value).parent? g = s.parent? g := by
  simp only [parent?, frame?_define]
  split
  · cases s.frame? g <;> rfl
  · rfl

/-- Changing a binding that a frame has makes no binding anywhere. -/
theorem binds_write (s : Store) (f g : FrameId) (name other : String) (value : Value) :
    (s.write f name value).2.binds g other = s.binds g other := by
  unfold write
  split
  · rename_i hbinds
    by_cases hframe : f = g
    · subst hframe
      simp only [binds, frame?_define, if_true] at hbinds ⊢
      cases hfound : s.frame? f with
      | none => rfl
      | some frame =>
        simp only [hfound, Frame.binds] at hbinds
        simp only [Option.map_some, Frame.binds, Frame.define, Std.TreeMap.contains_insert]
        by_cases hname : name = other
        · subst hname
          simp [hbinds]
        · simp [hname]
    · simp only [binds, frame?_define, if_neg hframe]
  · rfl

end Store

end Lox

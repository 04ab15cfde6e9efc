import Mathlib.Tactic
import Mathlib.Logic.Relation
import Lox.Proofs.Execution.Store

/-!
How stores come about: frame by frame, each enclosed by one that is there already or by none, and
binding by binding. So every link leads to an older frame, and no chain is longer than the number of
its first frame allows.
-/

namespace Lox.Store

variable {s t : Store} {f g : FrameId} {d : Nat}

/-- One step in the making of a store. A new frame is enclosed by a frame that is there, or by
    none. -/
inductive Builds (s : Store) : Store → Prop
  | create {enclosing : Option FrameId} (henclosing : ∀ parent ∈ enclosing, parent < s.next) :
      Builds s (s.push (.empty enclosing))
  | define (f : FrameId) (name : String) (value : Value) : Builds s (s.define f name value)
  | assign (f : FrameId) (name : String) (value : Value) : Builds s (s.assign f name value).2
  | assignAt (f : FrameId) (distance : Nat) (name : String) (value : Value) :
      Builds s (s.assignAt f distance name value).2

/-- The store was made by such steps out of the one without frames. -/
def Built (s : Store) : Prop :=
  Relation.ReflTransGen Builds .empty s

/-- Every frame is enclosed by an older one, or by none. -/
def Descending (s : Store) : Prop :=
  ∀ f parent, s.parent? f = some parent → parent < f

namespace Descending

/-- Only links matter. -/
theorem of_links (hs : s.Descending) (hparent : ∀ f, t.parent? f = s.parent? f) :
    t.Descending := by
  intro f parent hlink
  rw [hparent] at hlink
  exact hs f parent hlink

/-- A new frame is linked to an older one. -/
theorem push (hs : s.Descending) {frame : Frame}
    (henclosing : ∀ parent ∈ frame.enclosing, parent < s.next) : (s.push frame).Descending := by
  intro f parent hlink
  rcases Nat.lt_succ_iff_lt_or_eq.mp (next_push ▸ lt_next_of_parent? hlink) with hold | rfl
  · rw [parent?_push hold] at hlink
    exact hs f parent hlink
  · rw [parent?_push_next] at hlink
    exact henclosing parent hlink

/-- With every link the number of the frame goes down. -/
theorem add_le (hs : s.Descending) (habove : s.frameAbove? f d = some g) : g + d ≤ f := by
  induction d generalizing f with
  | zero => exact Nat.le_of_eq (Option.some.inj habove).symm
  | succ d ih =>
    obtain ⟨parent, hparent, habove⟩ := frameAbove?_succ.mp habove
    calc g + (d + 1) ≤ parent + 1 := Nat.succ_le_succ (ih habove)
      _ ≤ f := hs f parent hparent

end Descending

/-- No operation of the store changes a link. -/
theorem Builds.descending (h : s.Builds t) (hs : s.Descending) : t.Descending := by
  cases h with
  | create henclosing => exact hs.push henclosing
  | define => exact hs.of_links fun _ => by simp
  | assign f name value =>
    obtain ⟨g, hwrite⟩ := s.exists_assign_eq_write f name value
    rw [hwrite]
    exact hs.of_links fun _ => by simp
  | assignAt f distance name value =>
    obtain ⟨g, hwrite⟩ := s.exists_assignAt_eq_write f distance name value
    rw [hwrite]
    exact hs.of_links fun _ => by simp

namespace Built

/-- In every store that was built, links lead to older frames. -/
theorem descending (hs : s.Built) : s.Descending := by
  induction hs with
  | refl =>
    intro f parent hlink
    simp [parent?, frame?, empty] at hlink
  | tail _ hstep ih => exact hstep.descending ih

theorem define (hs : s.Built) (f : FrameId) (name : String) (value : Value) :
    (s.define f name value).Built :=
  hs.tail (.define f name value)

theorem write (hs : s.Built) (f : FrameId) (name : String) (value : Value) :
    (s.write f name value).2.Built :=
  hs.tail (.assignAt f 0 name value)

/-- A frame may be filled when it is made. -/
theorem push (hs : s.Built) {enclosing : Option FrameId}
    (henclosing : ∀ parent ∈ enclosing, parent < s.next) (bindings : List (String × Value)) :
    (s.push (bindings.foldl (fun f b => f.define b.1 b.2) (.empty enclosing))).Built := by
  have hcreated : (s.push (.empty enclosing)).Built := hs.tail (.create henclosing)
  generalize Frame.empty enclosing = frame at hcreated ⊢
  induction bindings generalizing frame with
  | nil => exact hcreated
  | cons b bindings ih =>
    refine ih (frame.define b.1 b.2) ?_
    rw [← define_push]
    exact hcreated.define s.next b.1 b.2

end Built

end Lox.Store

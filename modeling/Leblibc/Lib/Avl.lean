import Mathlib.Data.Nat.Fib.Basic
import Mathlib.Data.Tree.Basic

/-!
# Height-balanced binary trees and their contexts

A tree is balanced when the heights of siblings differ by at most one. A context is a tree with a
hole, given as the frames from the hole up to the root; a change of a subtree is carried to the root
one frame at a time, and the only thing a frame needs to know is the height its hole had before.

## Main definitions

* `inorder t`: the values of a tree, from left to right
* `Balanced t`: sibling heights differ by at most one
* `rebalance t`: one rebalancing at the root
* `Frame`, `plug C t`: a context and the tree it makes of a subtree
* `Fits C h`: filling the hole of `C` with a balanced tree of height `h` gives a balanced tree

## Main results

* `fib_le_numNodes`: a balanced tree of height `h` has at least `fib (h + 2) - 1` nodes
* `inorder_rebalance`, `balanced_rebalance`, `height_rebalance`: what a rebalancing does
* `balanced_plug`: when a plugged tree is balanced
-/

namespace Leblibc.Lib

open BinaryTree

variable {α : Type*}

/-- The values of a tree, from left to right. -/
@[simp]
def inorder : BinaryTree α → List α
  | nil => []
  | node x l r => inorder l ++ x :: inorder r

theorem length_inorder (t : BinaryTree α) : (inorder t).length = t.numNodes := by
  induction t with
  | nil => rfl
  | node x l r ihl ihr =>
    simp only [inorder, List.length_append, List.length_cons, numNodes]
    omega

/-- The heights of siblings differ by at most one. -/
@[simp]
def Balanced : BinaryTree α → Prop
  | nil => True
  | node _ l r => Balanced l ∧ Balanced r ∧ l.height ≤ r.height + 1 ∧ r.height ≤ l.height + 1

/-- **The size of a balanced tree grows like the Fibonacci numbers of its height.** -/
theorem fib_le_numNodes {t : BinaryTree α} (h : Balanced t) :
    Nat.fib (t.height + 2) ≤ t.numNodes + 1 := by
  induction t with
  | nil => simp
  | node x l r ihl ihr =>
    obtain ⟨hl, hr, hlr, hrl⟩ := h
    have hl' := ihl hl
    have hr' := ihr hr
    -- the higher subtree has the height of the tree less one, the other at least one less
    have hfib : ∀ m n, m ≤ n + 1 → Nat.fib (m + 1) ≤ Nat.fib (n + 2) :=
      fun m n hmn => Nat.fib_mono (by omega)
    have hstep : ∀ n, Nat.fib (n + 1 + 2) = Nat.fib (n + 1) + Nat.fib (n + 2) :=
      fun n => Nat.fib_add_two
    simp only [height, numNodes]
    rcases le_total l.height r.height with hle | hle
    · rw [max_eq_right hle, hstep]
      have := hfib _ _ hrl
      omega
    · rw [max_eq_left hle, hstep]
      have := hfib _ _ hlr
      omega

/-! ## Rebalancing -/

/-- The rotation of a tree whose child on the side `dir` is too high: a double one if the inner
grandchild is the higher one. -/
def rotate : Bool → BinaryTree α → BinaryTree α
  | true, node x l (node y (node z m₁ m₂) r) =>
    if r.height < (node z m₁ m₂).height then node z (node x l m₁) (node y m₂ r)
    else node y (node x l (node z m₁ m₂)) r
  | true, node x l (node y nil r) => node y (node x l nil) r
  | false, node x (node y l (node z m₁ m₂)) r =>
    if l.height < (node z m₁ m₂).height then node z (node y l m₁) (node x m₂ r)
    else node y l (node x (node z m₁ m₂) r)
  | false, node x (node y l nil) r => node y l (node x nil r)
  | _, t => t

/-- One rebalancing at the root. -/
def rebalance : BinaryTree α → BinaryTree α
  | nil => nil
  | node x l r =>
    if l.height ≤ r.height + 1 ∧ r.height ≤ l.height + 1 then node x l r
    else rotate (decide (l.height < r.height)) (node x l r)

theorem inorder_rotate (dir : Bool) (t : BinaryTree α) : inorder (rotate dir t) = inorder t := by
  unfold rotate
  split <;> (try split) <;> simp

theorem inorder_rebalance (t : BinaryTree α) : inorder (rebalance t) = inorder t := by
  unfold rebalance
  split
  · rfl
  · split
    · rfl
    · exact inorder_rotate _ _

/-- **A rotation restores the balance** of a tree one of whose subtrees is two levels higher, and the
tree comes out as high as before or one level lower. -/
theorem rotate_spec {x : α} {l r : BinaryTree α} (hl : Balanced l) (hr : Balanced r)
    (h : r.height = l.height + 2 ∨ l.height = r.height + 2) :
    Balanced (rotate (decide (l.height < r.height)) (node x l r)) ∧
      (rotate (decide (l.height < r.height)) (node x l r)).height ≤ max l.height r.height + 1 ∧
      max l.height r.height ≤ (rotate (decide (l.height < r.height)) (node x l r)).height := by
  rcases h with h | h
  · -- the right subtree is the higher one
    have hlt : l.height < r.height := by omega
    rw [decide_eq_true hlt]
    cases r with
    | nil => simp at h
    | node y m r =>
      cases m with
      | nil =>
        simp only [rotate, Balanced, height] at *
        casesm* _ ∧ _
        constructorm* _ ∧ _ <;> first | assumption | omega
      | node z m1 m2 =>
        simp only [rotate]
        split <;> simp only [Balanced, height] at * <;> casesm* _ ∧ _ <;>
          constructorm* _ ∧ _ <;> first | assumption | omega
  · -- the left subtree is the higher one
    have hlt : ¬ l.height < r.height := by omega
    rw [decide_eq_false hlt]
    cases l with
    | nil => simp at h
    | node y l m =>
      cases m with
      | nil =>
        simp only [rotate, Balanced, height] at *
        casesm* _ ∧ _
        constructorm* _ ∧ _ <;> first | assumption | omega
      | node z m1 m2 =>
        simp only [rotate]
        split <;> simp only [Balanced, height] at * <;> casesm* _ ∧ _ <;>
          constructorm* _ ∧ _ <;> first | assumption | omega

/-- **Rebalancing** a tree whose subtrees are balanced and differ in height by at most two. The tree
comes out as high as before or one level lower, and higher than the lower one of its subtrees. -/
theorem rebalance_spec {x : α} {l r : BinaryTree α} (hl : Balanced l) (hr : Balanced r)
    (hlr : l.height ≤ r.height + 2) (hrl : r.height ≤ l.height + 2) :
    Balanced (rebalance (node x l r)) ∧
      (rebalance (node x l r)).height ≤ max l.height r.height + 1 ∧
      max l.height r.height ≤ (rebalance (node x l r)).height ∧
      min l.height r.height < (rebalance (node x l r)).height := by
  rw [rebalance]
  split_ifs with h
  · exact ⟨⟨hl, hr, h.1, h.2⟩, le_refl _, Nat.le_succ _, Nat.lt_succ_of_le min_le_max⟩
  · obtain ⟨hbal, hle, hge⟩ := rotate_spec hl hr (by omega)
    exact ⟨hbal, hle, hge, lt_of_lt_of_le (by omega) hge⟩

/-! ## Contexts -/

/-- A node whose child on the side `dir` is missing. -/
structure Frame (α : Type*) where
  dir : Bool
  val : α
  sib : BinaryTree α

/-- The node with its missing child put in. -/
def Frame.fill (f : Frame α) (t : BinaryTree α) : BinaryTree α :=
  if f.dir then node f.val f.sib t else node f.val t f.sib

/-- The tree that a context makes of a subtree; the first frame is the one next to the hole. -/
@[simp]
def plug : List (Frame α) → BinaryTree α → BinaryTree α
  | [], t => t
  | f :: C, t => plug C (f.fill t)

/-- The values to the left of the hole. -/
def before : List (Frame α) → List α
  | [] => []
  | f :: C => before C ++ (if f.dir then inorder f.sib ++ [f.val] else [])

/-- The values to the right of the hole. -/
def after : List (Frame α) → List α
  | [] => []
  | f :: C => (if f.dir then [] else f.val :: inorder f.sib) ++ after C

theorem inorder_plug (C : List (Frame α)) (t : BinaryTree α) :
    inorder (plug C t) = before C ++ inorder t ++ after C := by
  induction C generalizing t with
  | nil => simp [before, after]
  | cons f C ih =>
    rw [plug, ih]
    cases hf : f.dir <;> simp [before, after, Frame.fill, hf]

theorem plug_append (C D : List (Frame α)) (t : BinaryTree α) :
    plug (C ++ D) t = plug D (plug C t) := by
  induction C generalizing t with
  | nil => rfl
  | cons f C ih => exact ih (f.fill t)

theorem before_append (C D : List (Frame α)) : before (C ++ D) = before D ++ before C := by
  induction C with
  | nil => simp [before]
  | cons f C ih => simp [before, ih]

theorem after_append (C D : List (Frame α)) : after (C ++ D) = after C ++ after D := by
  induction C with
  | nil => simp [after]
  | cons f C ih => simp [after, ih]

@[simp]
theorem height_fill (f : Frame α) (t : BinaryTree α) :
    (f.fill t).height = max t.height f.sib.height + 1 := by
  unfold Frame.fill
  split
  · simp [max_comm]
  · simp

/-- Filling the hole with a balanced tree of height `h` gives a balanced tree. -/
@[simp]
def Fits : List (Frame α) → ℕ → Prop
  | [], _ => True
  | f :: C, h => Balanced f.sib ∧ h ≤ f.sib.height + 1 ∧ f.sib.height ≤ h + 1 ∧
      Fits C (max h f.sib.height + 1)

theorem balanced_fill (f : Frame α) (t : BinaryTree α) :
    Balanced (f.fill t) ↔ Balanced t ∧ Balanced f.sib ∧ t.height ≤ f.sib.height + 1 ∧
      f.sib.height ≤ t.height + 1 := by
  unfold Frame.fill
  split
  · simp only [Balanced]
    tauto
  · rfl

theorem balanced_plug (C : List (Frame α)) (t : BinaryTree α) :
    Balanced (plug C t) ↔ Balanced t ∧ Fits C t.height := by
  induction C generalizing t with
  | nil => simp
  | cons f C ih =>
    rw [plug, ih, balanced_fill, height_fill, Fits]
    tauto

theorem height_add_length_le (C : List (Frame α)) (t : BinaryTree α) :
    t.height + C.length ≤ (plug C t).height := by
  induction C generalizing t with
  | nil => simp
  | cons f C ih =>
    have h := ih (f.fill t)
    rw [height_fill] at h
    rw [plug, List.length_cons]
    omega

end Leblibc.Lib

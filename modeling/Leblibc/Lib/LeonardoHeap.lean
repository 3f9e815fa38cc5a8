import Leblibc.Lib.Leonardo
import Mathlib.GroupTheory.Perm.List

/-!
# Leonardo heaps in an array

A tree of order `k` with its root at `r` takes the `leonardo k` places of an array up to `r`. The right
child of a tree of order `k + 2` is the tree of order `k` at `r - 1`, and its left child is the tree of
order `k + 1` before that. A heap is a row of such trees; it is in order if each tree is, the root being
the largest of its tree, and if the roots increase to the right.

An element that is out of place at the root of a tree goes down a path in it, and at the root of the first
tree of a heap goes along the roots first. The elements on the path move up by one place, as `place` says.

The order is any relation `R`; the results that need it to be reflexive or transitive say so.

## Main definitions

* `Tree R A k r`, `Children R A k r`: a tree in order, and one that is but for its root
* `place A x l`: the elements at the places `l` move up by one, and `x` comes to the last place
* `Rearranged n A B`: the first `n` elements are rearranged
* `SiftPath`, `TrinklePath`: the path of an element in a tree, and along the roots of a heap
* `Trees`, `Roots`: the trees of a heap are in order, and its roots are

## Main results

* `SiftPath.tree`: a tree is in order after the element at its root has gone down
* `TrinklePath.inOrder`: a heap is in order after the element at its first root has found its tree
* `le_first_root`: the first root of a heap in order is its largest element
-/

namespace Leblibc.Lib

open List Function

variable {α : Type*} {R : α → α → Prop} {A B : ℕ → α} {x : α} {k r : ℕ}

/-! ## Trees -/

/-- The tree of order `k` at `r` is in order. -/
def Tree (R : α → α → Prop) (A : ℕ → α) : ℕ → ℕ → Prop
  | k + 2, r =>
    R (A (r - 1 - leonardo k)) (A r) ∧ R (A (r - 1)) (A r) ∧
      Tree R A (k + 1) (r - 1 - leonardo k) ∧ Tree R A k (r - 1)
  | _, _ => True

/-- The children of the tree of order `k` at `r` are in order. -/
def Children (R : α → α → Prop) (A : ℕ → α) : ℕ → ℕ → Prop
  | k + 2, r => Tree R A (k + 1) (r - 1 - leonardo k) ∧ Tree R A k (r - 1)
  | _, _ => True

theorem tree_of_lt_two (hk : k < 2) : Tree R A k r := by
  match k, hk with
  | 0, _ => trivial
  | 1, _ => trivial

theorem Tree.children (h : Tree R A k r) : Children R A k r := by
  match k, h with
  | 0, _ => trivial
  | 1, _ => trivial
  | k + 2, h => exact h.2.2

theorem Tree.children_le (h : Tree R A k r) :
    ∀ k', k = k' + 2 → R (A (r - 1 - leonardo k')) (A r) ∧ R (A (r - 1)) (A r) := by
  rintro k' rfl
  exact ⟨h.1, h.2.1⟩

/-- Whether a tree is in order depends on the places it takes only. -/
theorem Tree.congr (h : Tree R A k r) (hfit : leonardo k ≤ r + 1)
    (heq : ∀ i, i ≤ r → r < i + leonardo k → A i = B i) : Tree R B k r := by
  induction k using leonardo.induct generalizing r with
  | case1 => trivial
  | case2 => trivial
  | case3 k ih1 ih2 =>
    obtain ⟨hl, hr, hlt, hrt⟩ := h
    have hpos' := leonardo_pos (k + 1)
    rw [leonardo_add_two] at hfit heq
    rw [heq (r - 1 - leonardo k) (by omega) (by omega), heq r (le_refl r) (by omega)] at hl
    rw [heq (r - 1) (by omega) (by omega), heq r (le_refl r) (by omega)] at hr
    refine ⟨hl, hr, ih2 hlt (by omega) fun i hi hi' => heq i (by omega) (by omega),
      ih1 hrt (by omega) fun i hi hi' => heq i (by omega) (by omega)⟩

theorem Children.congr (h : Children R A k r) (hfit : leonardo k ≤ r + 1)
    (heq : ∀ i, i < r → r < i + leonardo k → A i = B i) : Children R B k r := by
  match k, h with
  | 0, _ => trivial
  | 1, _ => trivial
  | k + 2, ⟨hl, hr⟩ =>
    rw [leonardo_add_two] at hfit heq
    exact ⟨hl.congr (by omega) fun i hi hi' => heq i (by omega) (by omega),
      hr.congr (by omega) fun i hi hi' => heq i (by omega) (by omega)⟩

variable {i : ℕ} {l : List ℕ} {y : α} {n : ℕ} {ks : List ℕ}

/-- The root of a tree in order is the largest of its elements. -/
theorem Tree.le_root [IsPreorder α R] (h : Tree R A k r) (hfit : leonardo k ≤ r + 1)
    (hi : i ≤ r) (hi' : r < i + leonardo k) : R (A i) (A r) := by
  induction k using leonardo.induct generalizing r with
  | case1 =>
    obtain rfl : i = r := by rw [leonardo] at hi'; omega
    exact refl _
  | case2 =>
    obtain rfl : i = r := by rw [leonardo] at hi'; omega
    exact refl _
  | case3 k ih1 ih2 =>
    obtain ⟨hl, hr, hlt, hrt⟩ := h
    rw [leonardo_add_two] at hfit hi'
    rcases hi.eq_or_lt with rfl | hlt'
    · exact refl _
    · -- the element is in the right or in the left child
      rcases Nat.lt_or_ge (r - 1) (i + leonardo k) with hin | hin
      · exact trans_of R (ih1 hrt (by omega) (by omega) hin) hr
      · exact trans_of R (ih2 hlt (by omega) (by omega) (by omega)) hl

/-! ## Moving elements up -/

/-- The element at each of the places `l` but the first moves to the place before, and `x` comes to the
last one. -/
def place (A : ℕ → α) (x : α) : List ℕ → ℕ → α
  | [] => A
  | [r] => Function.update A r x
  | r :: s :: l => Function.update (place A x (s :: l)) r (A s)

theorem place_of_notMem (hi : i ∉ l) : place A x l i = A i := by
  induction l using place.induct with
  | case1 => rfl
  | case2 r =>
    rw [mem_singleton] at hi
    exact update_of_ne hi _ _
  | case3 r s l ih =>
    rw [mem_cons, not_or] at hi
    rw [place, update_of_ne hi.1]
    exact ih hi.2

theorem place_cons_cons_self (r s : ℕ) (l : List ℕ) : place A x (r :: s :: l) r = A s :=
  update_self ..

theorem place_singleton_self (r : ℕ) : place A x [r] r = x := update_self ..

theorem place_singleton_of_ne (hi : i ≠ r) : A i = place A x [r] i := (update_of_ne hi _ _).symm

theorem place_congr (h : ∀ j ∈ l, A j = B j) (hi : i ∈ l) :
    place A x l i = place B x l i := by
  induction l using place.induct with
  | case1 => cases hi
  | case2 r =>
    obtain rfl := List.mem_singleton.mp hi
    rw [place_singleton_self, place_singleton_self]
  | case3 r s l ih =>
    by_cases hir : i = r
    · subst hir
      rw [place_cons_cons_self, place_cons_cons_self, h s (by simp)]
    · rw [place, place, update_of_ne hir, update_of_ne hir]
      exact ih (fun j hj => h j (mem_cons_of_mem r hj)) (mem_of_ne_of_mem hir hi)

theorem place_comp {β : Type*} (g : α → β) (l : List ℕ) (i : ℕ) :
    g (place A x l i) = place (g ∘ A) (g x) l i := by
  induction l using place.induct with
  | case1 => rfl
  | case2 r =>
    rw [place, place, update_apply, update_apply]
    split <;> rfl
  | case3 r s l ih =>
    rw [place, place, update_apply, update_apply]
    split
    · rfl
    · exact ih

theorem place_map {f : ℕ → ℕ} (hf : Function.Injective f) (l : List ℕ) (i : ℕ) :
    place A x (l.map f) (f i) = place (A ∘ f) x l i := by
  induction l using place.induct with
  | case1 => rfl
  | case2 r =>
    by_cases hir : i = r
    · subst hir
      rw [map_singleton, place_singleton_self, place_singleton_self]
    · rw [map_singleton, place, place, update_of_ne hir,
        update_of_ne (hf.ne hir)]
      rfl
  | case3 r s l ih =>
    by_cases hir : i = r
    · subst hir
      rw [map_cons, map_cons, place_cons_cons_self, place_cons_cons_self]
      rfl
    · rw [map_cons, map_cons, place, place, update_of_ne hir,
        update_of_ne (hf.ne hir)]
      exact ih

theorem place_mem (hi : i ∈ l) :
    place A x l i = x ∨ ∃ j ∈ l, place A x l i = A j := by
  induction l using place.induct with
  | case1 => cases hi
  | case2 r =>
    obtain rfl := List.mem_singleton.mp hi
    exact Or.inl (place_singleton_self i)
  | case3 r s l ih =>
    by_cases hir : i = r
    · subst hir
      exact Or.inr ⟨s, by simp, place_cons_cons_self ..⟩
    · rw [place, update_of_ne hir]
      rcases ih (mem_of_ne_of_mem hir hi) with h | ⟨j, hj, h⟩
      · exact Or.inl h
      · exact Or.inr ⟨j, mem_cons_of_mem r hj, h⟩

/-- What is placed is no larger than what everything that moves is no larger than. -/
theorem place_le (hx : R x y) (hl : ∀ j ∈ l, R (A j) y) (hi : R (A i) y) : R (place A x l i) y := by
  by_cases hmem : i ∈ l
  · rcases place_mem hmem with h | ⟨j, hj, h⟩
    · rwa [h]
    · rw [h]
      exact hl j hj
  · rwa [place_of_notMem hmem]

theorem place_update (hr : r ∉ l) :
    place (Function.update A r y) x l = Function.update (place A x l) r y := by
  induction l using place.induct with
  | case1 => rfl
  | case2 s =>
    rw [mem_singleton] at hr
    exact update_comm hr _ _ _
  | case3 s t l ih =>
    rw [mem_cons, not_or, mem_cons, not_or] at hr
    rw [place, ih (by rw [mem_cons, not_or]; exact hr.2),
      update_of_ne (Ne.symm hr.2.1)]
    exact update_comm hr.1 _ _ _

/-- The places form a cycle, along which the elements move after `x` has come to the first place. -/
theorem place_eq_comp_formPerm (hl : (r :: l).Nodup) : place A x (r :: l) = update A r x ∘ (r :: l).formPerm := by
  induction l generalizing r with
  | nil => rfl
  | cons s l ih =>
    obtain ⟨hr, hs⟩ := List.nodup_cons.mp hl
    have hrs : s ≠ r := fun h => hr (h ▸ mem_cons_self)
    have hfix := formPerm_apply_of_notMem hr
    rw [place, ih hs, formPerm_cons_cons]
    funext i
    by_cases hi : i = r
    · subst hi
      rw [update_self, comp_apply, Equiv.Perm.mul_apply, hfix, Equiv.swap_apply_left, update_of_ne hrs]
    · have hne : (s :: l).formPerm i ≠ r := fun h => hi (Equiv.injective _ (h.trans hfix.symm))
      rw [update_of_ne hi, comp_apply, comp_apply, Equiv.Perm.mul_apply]
      by_cases his : (s :: l).formPerm i = s
      · rw [his, Equiv.swap_apply_right, update_self, update_self]
      · rw [Equiv.swap_apply_of_ne_of_ne hne his, update_of_ne his, update_of_ne hne]

/-- The first `n` elements are rearranged, and the others are left. -/
def Rearranged (n : ℕ) (A B : ℕ → α) : Prop :=
  ∃ σ : Equiv.Perm ℕ, (∀ i, n ≤ i → σ i = i) ∧ B = A ∘ σ

theorem Rearranged.refl (n : ℕ) (A : ℕ → α) : Rearranged n A A := ⟨1, fun _ _ => rfl, rfl⟩

theorem Rearranged.trans {A B C : ℕ → α} (h : Rearranged n A B) (h' : Rearranged n B C) :
    Rearranged n A C := by
  obtain ⟨σ, hσ, rfl⟩ := h
  obtain ⟨τ, hτ, rfl⟩ := h'
  refine ⟨σ * τ, fun i hi => ?_, rfl⟩
  rw [Equiv.Perm.mul_apply, hτ i hi, hσ i hi]

theorem Rearranged.mono {m : ℕ} (h : Rearranged m A B) (hmn : m ≤ n) : Rearranged n A B := by
  obtain ⟨σ, hσ, rfl⟩ := h
  exact ⟨σ, fun i hi => hσ i (hmn.trans hi), rfl⟩

theorem Rearranged.eq_of_le (h : Rearranged n A B) (hi : n ≤ i) : B i = A i := by
  obtain ⟨σ, hσ, rfl⟩ := h
  exact congrArg A (hσ i hi)

/-- A place beyond is left where it is, and so nothing else comes to it. -/
theorem perm_apply_lt {σ : Equiv.Perm ℕ} (hσ : ∀ i, n ≤ i → σ i = i) (hi : i < n) :
    σ i < n := by
  by_contra hge
  have := σ.injective (hσ (σ i) (by omega))
  omega

/-- The first elements are the same ones, in another order. -/
theorem Rearranged.perm (h : Rearranged n A B) :
    ((List.range n).map B).Perm ((List.range n).map A) := by
  obtain ⟨σ, hσ, rfl⟩ := h
  rw [← map_map]
  refine Perm.map A ?_
  rw [perm_ext_iff_of_nodup (List.nodup_range.map σ.injective) nodup_range]
  intro i
  rw [mem_map, mem_range]
  constructor
  · rintro ⟨j, hj, rfl⟩
    exact perm_apply_lt hσ (List.mem_range.mp hj)
  · intro hi
    refine ⟨σ.symm i, ?_, σ.apply_symm_apply i⟩
    rw [mem_range]
    by_contra hge
    have := hσ (σ.symm i) (by omega)
    rw [σ.apply_symm_apply] at this
    omega

/-- What is among the first elements afterwards was among them before. -/
theorem Rearranged.exists_lt (h : Rearranged n A B) (hi : i < n) :
    ∃ j < n, B i = A j := by
  obtain ⟨σ, hσ, rfl⟩ := h
  exact ⟨σ i, perm_apply_lt hσ hi, rfl⟩

/-- Elements that move up along distinct places, the first one to the last place, are rearranged. -/
theorem rearranged_place (hl : (r :: l).Nodup) (hn : ∀ i ∈ r :: l, i < n) :
    Rearranged n A (place A (A r) (r :: l)) := by
  refine ⟨(r :: l).formPerm, fun i hi => ?_, ?_⟩
  · exact formPerm_apply_of_notMem fun hmem => absurd (hn i hmem) (by omega)
  · rw [place_eq_comp_formPerm hl, update_eq_self]

/-! ## Going down a tree -/

/-- The path of `x` down the tree of order `k` at `r`, where nothing is at `r` itself. It ends where the
children are no larger than `x`, and else goes on to a child that is no smaller than the other one and
`x`. -/
inductive SiftPath (R : α → α → Prop) (A : ℕ → α) (x : α) : ℕ → ℕ → List ℕ → Prop
  | leaf {k r : ℕ} (hk : k < 2) : SiftPath R A x k r []
  | stop {k r : ℕ} (hl : R (A (r - 1 - leonardo k)) x) (hr : R (A (r - 1)) x) :
      SiftPath R A x (k + 2) r []
  | left {k r : ℕ} {l : List ℕ} (hx : R x (A (r - 1 - leonardo k)) ∨ R x (A (r - 1)))
      (hle : R (A (r - 1)) (A (r - 1 - leonardo k)))
      (h : SiftPath R A x (k + 1) (r - 1 - leonardo k) l) :
      SiftPath R A x (k + 2) r ((r - 1 - leonardo k) :: l)
  | right {k r : ℕ} {l : List ℕ} (hx : R x (A (r - 1 - leonardo k)) ∨ R x (A (r - 1)))
      (hle : R (A (r - 1 - leonardo k)) (A (r - 1))) (h : SiftPath R A x k (r - 1) l) :
      SiftPath R A x (k + 2) r ((r - 1) :: l)

namespace SiftPath

variable {l : List ℕ}

theorem bounds (h : SiftPath R A x k r l) (hfit : leonardo k ≤ r + 1) (hi : i ∈ l) :
    i < r ∧ r < i + leonardo k := by
  induction h with
  | leaf _ => cases hi
  | stop _ _ => cases hi
  | @left k r l _ _ _ ih =>
    have hpos' := leonardo_pos (k + 1)
    rw [leonardo_add_two] at hfit ⊢
    rcases List.mem_cons.mp hi with rfl | hi
    · omega
    · have := ih (by omega) hi
      omega
  | @right k r l _ _ _ ih =>
    have hpos := leonardo_pos k
    rw [leonardo_add_two] at hfit ⊢
    rcases List.mem_cons.mp hi with rfl | hi
    · omega
    · have := ih (by omega) hi
      omega

theorem nodup (h : SiftPath R A x k r l) (hfit : leonardo k ≤ r + 1) : (r :: l).Nodup := by
  induction h with
  | leaf _ => exact nodup_singleton _
  | stop _ _ => exact nodup_singleton _
  | @left k r l hx hle h ih =>
    have hfit' : leonardo (k + 1) ≤ r - 1 - leonardo k + 1 := by
      rw [leonardo_add_two] at hfit
      omega
    refine List.nodup_cons.mpr ⟨fun hmem => ?_, ih hfit'⟩
    have := (left hx hle h).bounds hfit hmem
    omega
  | @right k r l hx hle h ih =>
    have hfit' : leonardo k ≤ r - 1 + 1 := by
      rw [leonardo_add_two] at hfit
      omega
    refine List.nodup_cons.mpr ⟨fun hmem => ?_, ih hfit'⟩
    have := (right hx hle h).bounds hfit hmem
    omega

theorem length_le (h : SiftPath R A x k r l) : l.length ≤ k := by
  induction h with
  | leaf _ => exact Nat.zero_le _
  | stop _ _ => exact Nat.zero_le _
  | left _ _ _ ih =>
    rw [length_cons]
    omega
  | right _ _ _ ih =>
    rw [length_cons]
    omega

/-- The path depends on the elements below the root only. -/
theorem congr (h : SiftPath R A x k r l) (hfit : leonardo k ≤ r + 1)
    (heq : ∀ i, i < r → r < i + leonardo k → A i = B i) : SiftPath R B x k r l := by
  induction h with
  | leaf hk => exact leaf hk
  | @stop k r hl hr =>
    have hpos' := leonardo_pos (k + 1)
    rw [leonardo_add_two] at hfit heq
    rw [heq _ (by omega) (by omega)] at hl hr
    exact stop hl hr
  | @left k r l hx hle h ih =>
    have hpos' := leonardo_pos (k + 1)
    rw [leonardo_add_two] at hfit heq
    rw [heq (r - 1 - leonardo k) (by omega) (by omega), heq (r - 1) (by omega) (by omega)] at hx hle
    exact left hx hle (ih (by omega) fun i hi hi' => heq i (by omega) (by omega))
  | @right k r l hx hle h ih =>
    have hpos' := leonardo_pos (k + 1)
    rw [leonardo_add_two] at hfit heq
    rw [heq (r - 1 - leonardo k) (by omega) (by omega), heq (r - 1) (by omega) (by omega)] at hx hle
    exact right hx hle (ih (by omega) fun i hi hi' => heq i (by omega) (by omega))

/-- The root of the tree in the end is no smaller than `x`, nor than the children at first. -/
theorem le_root [IsPreorder α R] (h : SiftPath R A x k r l) :
    R x (place A x (r :: l) r) ∧
      ∀ k', k = k' + 2 → R (A (r - 1 - leonardo k')) (place A x (r :: l) r) ∧
        R (A (r - 1)) (place A x (r :: l) r) := by
  cases h with
  | leaf hk =>
    rw [place_singleton_self]
    exact ⟨refl _, fun k' hk' => absurd hk (by omega)⟩
  | stop hl hr =>
    rw [place_singleton_self]
    refine ⟨refl _, fun k' hk' => ?_⟩
    obtain rfl := Nat.add_right_cancel hk'
    exact ⟨hl, hr⟩
  | left hx hle _ =>
    rw [place_cons_cons_self]
    refine ⟨hx.elim id fun h => trans_of R h hle, fun k' hk' => ?_⟩
    obtain rfl := Nat.add_right_cancel hk'
    exact ⟨refl _, hle⟩
  | right hx hle _ =>
    rw [place_cons_cons_self]
    refine ⟨hx.elim (fun h => trans_of R h hle) id, fun k' hk' => ?_⟩
    obtain rfl := Nat.add_right_cancel hk'
    exact ⟨hle, refl _⟩

/-- The root of the tree in the end is no larger than what `x` and the children are no larger than. -/
theorem root_le (h : SiftPath R A x k r l) (hx : R x y)
    (hy : ∀ k', k = k' + 2 → R (A (r - 1 - leonardo k')) y ∧ R (A (r - 1)) y) :
    R (place A x (r :: l) r) y := by
  cases h with
  | leaf _ => rwa [place_singleton_self]
  | stop _ _ => rwa [place_singleton_self]
  | left _ _ _ =>
    rw [place_cons_cons_self]
    exact (hy _ rfl).1
  | right _ _ _ =>
    rw [place_cons_cons_self]
    exact (hy _ rfl).2

/-- **A tree is in order after the element at its root has gone down.** -/
theorem tree [IsPreorder α R] (h : SiftPath R A x k r l) (hfit : leonardo k ≤ r + 1)
    (hch : Children R A k r) : Tree R (place A x (r :: l)) k r := by
  induction h with
  | leaf hk => exact tree_of_lt_two hk
  | @stop k r hl hr =>
    have hpos := leonardo_pos k
    rw [leonardo_add_two] at hfit
    refine ⟨?_, ?_, ?_, ?_⟩
    · rw [place_singleton_self, ← place_singleton_of_ne (by omega)]
      exact hl
    · rw [place_singleton_self, ← place_singleton_of_ne (by omega)]
      exact hr
    · exact hch.1.congr (by omega) fun i hi _ => place_singleton_of_ne (by omega)
    · exact hch.2.congr (by omega) fun i hi _ => place_singleton_of_ne (by omega)
  | @left k r l hx hle h ih =>
    have hpos := leonardo_pos k
    have hpos' := leonardo_pos (k + 1)
    rw [leonardo_add_two] at hfit
    -- the left child is rebuilt, and its old root is the new root of the whole
    have hroot := place_cons_cons_self (A := A) (x := x) r (r - 1 - leonardo k) l
    have hsub : ∀ i, i ≠ r → place A x ((r - 1 - leonardo k) :: l) i =
        place A x (r :: (r - 1 - leonardo k) :: l) i := by
      intro i hi
      exact (update_of_ne hi _ _).symm
    have hright : ∀ i, r - 1 < i + leonardo k → i ≤ r - 1 →
        A i = place A x (r :: (r - 1 - leonardo k) :: l) i := by
      intro i hi hi'
      refine (place_of_notMem fun hmem => ?_).symm
      rcases List.mem_cons.mp hmem with rfl | hmem
      · omega
      · rcases List.mem_cons.mp hmem with rfl | hmem
        · omega
        · have := h.bounds (by omega) hmem
          omega
    refine ⟨?_, ?_, ?_, ?_⟩
    · rw [hroot, ← hsub _ (by omega)]
      exact h.root_le (hx.elim id fun h => trans_of R h hle) hch.1.children_le
    · rw [hroot, ← hright _ (by omega) (by omega)]
      exact hle
    · exact (ih (by omega) hch.1.children).congr (by omega) fun i hi _ => hsub i (by omega)
    · exact hch.2.congr (by omega) fun i hi hi' => hright i hi' hi
  | @right k r l hx hle h ih =>
    have hpos := leonardo_pos k
    have hpos' := leonardo_pos (k + 1)
    rw [leonardo_add_two] at hfit
    -- the right child is rebuilt
    have hroot := place_cons_cons_self (A := A) (x := x) r (r - 1) l
    have hsub : ∀ i, i ≠ r → place A x ((r - 1) :: l) i = place A x (r :: (r - 1) :: l) i := by
      intro i hi
      exact (update_of_ne hi _ _).symm
    have hleft : ∀ i, i ≤ r - 1 - leonardo k → A i = place A x (r :: (r - 1) :: l) i := by
      intro i hi
      refine (place_of_notMem fun hmem => ?_).symm
      rcases List.mem_cons.mp hmem with rfl | hmem
      · omega
      · rcases List.mem_cons.mp hmem with rfl | hmem
        · omega
        · have := h.bounds (by omega) hmem
          omega
    refine ⟨?_, ?_, ?_, ?_⟩
    · rw [hroot, ← hleft _ (by omega)]
      exact hle
    · rw [hroot, ← hsub _ (by omega)]
      exact h.root_le (hx.elim (fun h => trans_of R h hle) id) hch.2.children_le
    · exact hch.1.congr (by omega) fun i hi _ => hleft i hi
    · exact (ih (by omega) hch.2.children).congr (by omega) fun i hi _ => hsub i (by omega)

end SiftPath

/-! ## Rows of trees -/

/-- The trees of the orders `ks`, the first one with its root at `r` and the others before it, are in
order. -/
def Trees (R : α → α → Prop) (A : ℕ → α) : List ℕ → ℕ → Prop
  | [], _ => True
  | k :: ks, r => Tree R A k r ∧ Trees R A ks (r - leonardo k)

/-- The roots of the trees of the orders `ks` increase to the right. -/
def Roots (R : α → α → Prop) (A : ℕ → α) : List ℕ → ℕ → Prop
  | k :: k' :: ks, r => R (A (r - leonardo k)) (A r) ∧ Roots R A (k' :: ks) (r - leonardo k)
  | _, _ => True

/-- The number of places that trees take. -/
def treesSize (ks : List ℕ) : ℕ := (ks.map leonardo).sum

theorem treesSize_cons (k : ℕ) (ks : List ℕ) : treesSize (k :: ks) = leonardo k + treesSize ks := by
  rfl

theorem leonardo_le_treesSize (hk : k ∈ ks) : leonardo k ≤ treesSize ks :=
  le_sum_of_mem (mem_map_of_mem hk)

theorem treesSize_pos (k : ℕ) (ks : List ℕ) : 0 < treesSize (k :: ks) := by
  rw [treesSize_cons]
  have := leonardo_pos k
  omega

theorem Trees.congr (h : Trees R A ks r) (hfit : ks ≠ [] → treesSize ks ≤ r + 1)
    (heq : ∀ i, i ≤ r → A i = B i) : Trees R B ks r := by
  induction ks generalizing r with
  | nil => trivial
  | cons k ks ih =>
    have hfit' := hfit (cons_ne_nil _ _)
    rw [treesSize_cons] at hfit'
    refine ⟨h.1.congr (by omega) fun i hi _ => heq i hi, ih h.2 (fun hne => ?_) fun i hi => ?_⟩
    · omega
    · exact heq i (by omega)

theorem Roots.congr (h : Roots R A ks r) (heq : ∀ i, i ≤ r → A i = B i) :
    Roots R B ks r := by
  induction ks generalizing r with
  | nil => trivial
  | cons k ks ih =>
    match ks, h with
    | [], _ => trivial
    | k' :: ks, h =>
      refine ⟨?_, ih h.2 fun i hi => heq i (by omega)⟩
      rw [← heq _ (Nat.sub_le ..), ← heq r (le_refl r)]
      exact h.1

/-- The first root of a heap in order is its largest element. -/
theorem le_first_root [IsPreorder α R] (hne : ks ≠ []) (ht : Trees R A ks r)
    (hr : Roots R A ks r) (hsize : treesSize ks = r + 1) (hi : i ≤ r) : R (A i) (A r) := by
  induction ks generalizing r with
  | nil => exact absurd rfl hne
  | cons k ks ih =>
    rw [treesSize_cons] at hsize
    rcases Nat.lt_or_ge r (i + leonardo k) with hin | hout
    · exact ht.1.le_root (by omega) hi hin
    · cases ks with
      | nil =>
        simp only [treesSize, map_nil, sum_nil] at hsize
        omega
      | cons k' ks =>
        exact trans_of R (ih (cons_ne_nil _ _) ht.2 hr.2 (by omega) (by omega)) hr.1

/-! ## Going along the roots -/

/-- The path of `x` along the roots of the trees of the orders `ks`, where nothing is at the first root.
It goes on to the next root where that is no smaller than `x` and than the children of the tree it is
at; it ends in the trees `ks'`, the first of which has its root at `r'`. -/
inductive TrinklePath (R : α → α → Prop) (A : ℕ → α) (x : α) :
    List ℕ → ℕ → List ℕ → List ℕ → ℕ → Prop
  | last {k r : ℕ} : TrinklePath R A x [k] r [] [k] r
  | root {k k' r : ℕ} {ks : List ℕ} (h : R (A (r - leonardo k)) x) :
      TrinklePath R A x (k :: k' :: ks) r [] (k :: k' :: ks) r
  | child {k k' r : ℕ} {ks : List ℕ}
      (h : R (A (r - leonardo (k + 2))) (A (r - 1 - leonardo k)) ∨
        R (A (r - leonardo (k + 2))) (A (r - 1))) :
      TrinklePath R A x ((k + 2) :: k' :: ks) r [] ((k + 2) :: k' :: ks) r
  | step {k k' r r' : ℕ} {ks ks' l : List ℕ} (hx : R x (A (r - leonardo k)))
      (hch : ∀ i, k = i + 2 → R (A (r - 1 - leonardo i)) (A (r - leonardo k)) ∧
        R (A (r - 1)) (A (r - leonardo k)))
      (h : TrinklePath R A x (k' :: ks) (r - leonardo k) l ks' r') :
      TrinklePath R A x (k :: k' :: ks) r ((r - leonardo k) :: l) ks' r'

namespace TrinklePath

variable {ks ks' l : List ℕ} {r' : ℕ}

theorem final (h : TrinklePath R A x ks r l ks' r') (hsize : treesSize ks = r + 1) :
    ∃ k' kt, ks' = k' :: kt ∧ treesSize ks' = r' + 1 ∧ r' ≤ r ∧ k' ∈ ks := by
  induction h with
  | @last k r => exact ⟨k, [], rfl, hsize, le_refl r, mem_cons_self ..⟩
  | @root k k' r ks _ => exact ⟨k, _, rfl, hsize, le_refl r, mem_cons_self ..⟩
  | @child k k' r ks _ => exact ⟨k + 2, _, rfl, hsize, le_refl r, mem_cons_self ..⟩
  | @step k k' r r' ks ks' l _ _ _ ih =>
    rw [treesSize_cons] at hsize
    have hpos := treesSize_pos k' ks
    obtain ⟨k1, kt, heq, hsize', hle, hmem⟩ := ih (by omega)
    exact ⟨k1, kt, heq, hsize', by omega, mem_cons_of_mem _ hmem⟩

/-- The path keeps to the left of where it began, and does not go beyond its end. -/
theorem bounds (h : TrinklePath R A x ks r l ks' r') (hsize : treesSize ks = r + 1) (hi : i ∈ l) : i < r ∧ r' ≤ i := by
  induction h with
  | last => cases hi
  | root _ => cases hi
  | child _ => cases hi
  | @step k k' r r' ks ks' l _ _ h ih =>
    rw [treesSize_cons] at hsize
    have hpos := leonardo_pos k
    have hpos' := treesSize_pos k' ks
    obtain ⟨-, -, -, -, hle, -⟩ := h.final (by omega)
    rcases List.mem_cons.mp hi with rfl | hi
    · omega
    · have := ih (by omega) hi
      omega

theorem nodup (h : TrinklePath R A x ks r l ks' r') (hsize : treesSize ks = r + 1) :
    (r :: l).Nodup := by
  induction h with
  | last => exact nodup_singleton _
  | root _ => exact nodup_singleton _
  | child _ => exact nodup_singleton _
  | @step k k' r r' ks ks' l hx hch h ih =>
    refine List.nodup_cons.mpr ⟨fun hmem => ?_, ?_⟩
    · have := (step hx hch h).bounds hsize hmem
      omega
    · rw [treesSize_cons] at hsize
      have hpos := treesSize_pos k' ks
      exact ih (by omega)

theorem length_lt (h : TrinklePath R A x ks r l ks' r') : l.length < ks.length := by
  induction h with
  | last => exact Nat.one_pos
  | root _ => exact Nat.succ_pos _
  | child _ => exact Nat.succ_pos _
  | step _ _ _ ih =>
    rw [length_cons, length_cons]
    omega

theorem place_final (h : TrinklePath R A x ks r l ks' r') (hsize : treesSize ks = r + 1) :
    place A x (r :: l) r' = x := by
  induction h with
  | last => exact place_singleton_self _
  | root _ => exact place_singleton_self _
  | child _ => exact place_singleton_self _
  | @step k k' r r' ks ks' l _ _ h ih =>
    rw [treesSize_cons] at hsize
    have hpos := leonardo_pos k
    have hpos' := treesSize_pos k' ks
    obtain ⟨-, -, -, -, hle, -⟩ := h.final (by omega)
    rw [place, update_of_ne (by omega)]
    exact ih (by omega)

/-- A heap is in order where the path along the roots ends at once. -/
theorem inOrder_of_stop [IsPreorder α R] {k : ℕ} {kt sp : List ℕ} (hsize : treesSize (k :: kt) = r + 1)
    (hch : Children R A k r) (ht : Trees R A kt (r - leonardo k)) (hr : Roots R A kt (r - leonardo k))
    (hs : SiftPath R (place A x [r]) x k r sp)
    (hroot : kt ≠ [] → R (A (r - leonardo k)) (place (place A x [r]) x (r :: sp) r)) :
    Trees R (place (place A x [r]) x (r :: sp)) (k :: kt) r ∧
      Roots R (place (place A x [r]) x (r :: sp)) (k :: kt) r := by
  rw [treesSize_cons] at hsize
  have hpos := leonardo_pos k
  have hfit : leonardo k ≤ r + 1 := by omega
  have hrest : kt ≠ [] → ∀ i, i ≤ r - leonardo k → A i = place (place A x [r]) x (r :: sp) i := by
    intro hne i hi
    obtain ⟨k', kt, rfl⟩ := exists_cons_of_ne_nil hne
    have := treesSize_pos k' kt
    rw [place_of_notMem fun hmem => ?_]
    · exact place_singleton_of_ne (by omega)
    · rcases List.mem_cons.mp hmem with rfl | hmem
      · omega
      · have := hs.bounds hfit hmem
        omega
  have htree : Tree R (place (place A x [r]) x (r :: sp)) k r :=
    hs.tree hfit (hch.congr hfit fun i hi _ => place_singleton_of_ne (by omega))
  cases kt with
  | nil => exact ⟨⟨htree, trivial⟩, trivial⟩
  | cons k' kt =>
    have hne : k' :: kt ≠ [] := cons_ne_nil _ _
    refine ⟨⟨htree, ht.congr (fun _ => by omega) (hrest hne)⟩, ?_, hr.congr (hrest hne)⟩
    rw [← hrest hne _ (le_refl _)]
    exact hroot hne

/-- **A heap is in order after the element at its first root has found its tree**: the elements move up
along the roots, and then down the tree where the path ends. -/
theorem inOrder [IsPreorder α R] (h : TrinklePath R A x ks r l ks' r') (hsize : treesSize ks = r + 1)
    (hks : ∀ k kt, ks = k :: kt → Children R A k r ∧ Trees R A kt (r - leonardo k) ∧
      Roots R A kt (r - leonardo k)) {k' : ℕ} {kt' sp : List ℕ} (hks' : ks' = k' :: kt')
    (hs : SiftPath R (place A x (r :: l)) x k' r' sp) :
    Trees R (place (place A x (r :: l)) x (r' :: sp)) ks r ∧
      Roots R (place (place A x (r :: l)) x (r' :: sp)) ks r := by
  induction h with
  | last =>
    cases hks'
    obtain ⟨hch, ht, hr⟩ := hks _ _ rfl
    exact inOrder_of_stop hsize hch ht hr hs fun hne => absurd rfl hne
  | root hle =>
    cases hks'
    obtain ⟨hch, ht, hr⟩ := hks _ _ rfl
    exact inOrder_of_stop hsize hch ht hr hs fun _ => trans_of R hle hs.le_root.1
  | @child k k' r ks hle =>
    cases hks'
    obtain ⟨hch, ht, hr⟩ := hks _ _ rfl
    refine inOrder_of_stop hsize hch ht hr hs fun _ => ?_
    -- a child at first is no larger than the root in the end
    obtain ⟨hl, hr'⟩ := hs.le_root.2 k rfl
    have hpos := leonardo_pos (k + 1)
    rw [treesSize_cons, leonardo_add_two] at hsize
    rw [← place_singleton_of_ne (by omega)] at hl hr'
    exact hle.elim (fun h => trans_of R h hl) fun h => trans_of R h hr'
  | @step k k1 r r' ks ks' l hx hle h ih =>
    obtain ⟨hch, ht, hr⟩ := hks _ _ rfl
    rw [treesSize_cons] at hsize
    have hpos := leonardo_pos k
    have hpos' := treesSize_pos k1 ks
    have hsize' : treesSize (k1 :: ks) = r - leonardo k + 1 := by omega
    obtain ⟨k2, kt2, heq2, hsize2, hle2, -⟩ := h.final hsize'
    obtain ⟨rfl, rfl⟩ : k' = k2 ∧ kt' = kt2 := by
      rw [hks'] at heq2
      exact List.cons.inj heq2
    rw [heq2, treesSize_cons] at hsize2
    -- nothing on the rest of the path is at `r`
    have hsub : ∀ i ∈ r' :: sp, i ≤ r - leonardo k := by
      intro i hi
      rcases List.mem_cons.mp hi with rfl | hi
      · exact hle2
      · have := hs.bounds (by omega) hi
        omega
    have hpath : ∀ i ∈ (r - leonardo k) :: l, i ≤ r - leonardo k := by
      intro i hi
      rcases List.mem_cons.mp hi with rfl | hi
      · exact le_refl _
      · exact (h.bounds hsize' hi).1.le
    have hs' : SiftPath R (place A x ((r - leonardo k) :: l)) x k' r' sp :=
      hs.congr (by omega) fun i hi _ => update_of_ne (by omega) _ _
    obtain ⟨iht, ihr⟩ := ih hsize'
      (fun k kt hkt => by cases hkt; exact ⟨ht.1.children, ht.2, by
        cases ks with
        | nil => trivial
        | cons _ _ => exact hr.2⟩) hks' hs'
    rw [place, place_update fun hmem => by have := hsub r hmem; omega]
    set C := place (place A x ((r - leonardo k) :: l)) x (r' :: sp) with hC
    have hnew : ∀ i, i ≠ r → C i = Function.update C r (A (r - leonardo k)) i := by
      intro i hi
      exact (update_of_ne hi _ _).symm
    have hold : ∀ i, r - leonardo k < i → C i = A i := by
      intro i hi
      rw [hC, place_of_notMem fun hmem => by have := hsub i hmem; omega,
        place_of_notMem fun hmem => by have := hpath i hmem; omega]
    have hmax : ∀ i, i ≤ r - leonardo k → R (A i) (A (r - leonardo k)) := fun i hi =>
      le_first_root (cons_ne_nil _ _) ht hr hsize' hi
    have hmaxC : R (C (r - leonardo k)) (A (r - leonardo k)) := by
      have hB : ∀ i, i ≤ r - leonardo k →
          R (place A x ((r - leonardo k) :: l) i) (A (r - leonardo k)) := fun i hi =>
        place_le hx (fun j hj => hmax j (hpath j hj)) (hmax i hi)
      exact place_le hx (fun j hj => hB j (hsub j hj)) (hB _ (le_refl _))
    refine ⟨⟨?_, iht.congr (fun _ => by omega) fun i hi => hnew i (by omega)⟩, ?_,
      ihr.congr fun i hi => hnew i (by omega)⟩
    · match k, hle, hch with
      | 0, _, _ => trivial
      | 1, _, _ => trivial
      | k + 2, hle, hch =>
        have hk' := leonardo_pos (k + 1)
        rw [leonardo_add_two] at hsize hold hnew hpos
        obtain ⟨hl, hr⟩ := hle k rfl
        have hkeep : ∀ i, i ≠ r → r - (leonardo k + leonardo (k + 1) + 1) < i →
            A i = Function.update C r (A (r - leonardo (k + 2))) i := by
          intro i hi hi'
          rw [leonardo_add_two, ← hnew i hi, hold i hi']
        refine ⟨?_, ?_, ?_, ?_⟩
        · rw [update_self, ← hkeep _ (by omega) (by omega)]
          exact hl
        · rw [update_self, ← hkeep _ (by omega) (by omega)]
          exact hr
        · exact hch.1.congr (by omega) fun i hi hi' => hkeep i (by omega) (by omega)
        · exact hch.2.congr (by omega) fun i hi hi' => hkeep i (by omega) (by omega)
    · rw [update_self, ← hnew _ (by omega)]
      exact hmaxC

end TrinklePath

end Leblibc.Lib

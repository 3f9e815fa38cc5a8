import Leblibc.Stdlib.QsortHeap

/-!
# Smoothsort sorts

The first loop of `__qsort_r` makes a heap of the array, one element at a time. A tree that becomes a part
of a larger one is only put in order itself; a tree that stays as it is, which the size of what is left of
the array tells, is put in order with the trees before it. The last loop takes the largest element off the
heap and puts the trees it leaves in order.

For every comparison function the sort ends, with the elements rearranged; if the function is consistent
with a preorder, they are sorted.

## Main results

* `buildLoop_spec`, `drainLoop_spec`: the two loops
* `qsortR_spec`: the sort, for every comparison function
* `qsort_sorts`: the sort, for a comparison function that is a total preorder
* `qsort_permutes`: the sort, for a comparison function that returns anything
-/

namespace Leblibc.Qsort

open List Option

open Leblibc.Lib

variable {σ : Type} {E : Env σ} {lp : ℕ → ℕ} {R : List UInt8 → List UInt8 → Prop}

/-! ## Trees that stay -/

/-- What is left of an array of `N` elements after `r` is too little for the tree of order `k` at `r` to
become the left child of a larger one. -/
def Stays (N k r : ℕ) : Prop := N - 1 - r ≤ if k = 0 then 0 else leonardo (k - 1)

variable {N k k' r : ℕ} {A B : ℕ → List UInt8} {ks kt : List ℕ} {x : List UInt8}

theorem Stays.next (h : Stays N k r) (hk : k + 2 ≤ k') (hfit : leonardo k ≤ r) :
    Stays N k' (r - leonardo k) := by
  unfold Stays at h ⊢
  have hmono : leonardo (k + 1) ≤ leonardo (k' - 1) := leonardo_mono (by omega)
  rw [if_neg (by omega)]
  cases k with
  | zero =>
    rw [if_pos rfl] at h
    have h0 : leonardo 0 = 1 := rfl
    have := leonardo_pos (0 + 1)
    omega
  | succ k =>
    rw [if_neg (by omega), Nat.add_sub_cancel] at h
    rw [leonardo_add_two] at hmono
    omega

/-- The trees before the last one stay when the array is at its end. -/
theorem stays_of_end (hr : r = N - 1) (hk : k < k') (hfit : leonardo k ≤ r) :
    Stays N k' (r - leonardo k) := by
  unfold Stays
  have hmono : leonardo k ≤ leonardo (k' - 1) := leonardo_mono (by omega)
  rw [if_neg (by omega)]
  omega

/-- The roots of the trees that stay are not smaller than the ones before them. -/
def StayRoots (R : List UInt8 → List UInt8 → Prop) (A : ℕ → List UInt8) (N : ℕ) : List ℕ → ℕ → Prop
  | k :: k' :: ks, r =>
    (Stays N k r → R (A (r - leonardo k)) (A r)) ∧ StayRoots R A N (k' :: ks) (r - leonardo k)
  | _, _ => True

theorem StayRoots.congr (h : StayRoots R A N ks r) (heq : ∀ i, i ≤ r → A i = B i) : StayRoots R B N ks r := by
  induction ks generalizing r with
  | nil => trivial
  | cons k ks ih =>
    match ks, h with
    | [], _ => trivial
    | k' :: ks, h =>
      refine ⟨?_, ih h.2 fun i hi => heq i (by omega)⟩
      rw [← heq _ (Nat.sub_le ..), ← heq r (le_refl r)]
      exact h.1

theorem StayRoots.of_roots (h : Roots R A ks r) :
    StayRoots R A N ks r := by
  induction ks generalizing r with
  | nil => trivial
  | cons k ks ih =>
    match ks, h with
    | [], _ => trivial
    | k' :: ks, h => exact ⟨fun _ => h.1, ih h.2⟩

/-- Where the first tree stays, all the roots increase. -/
theorem StayRoots.roots (h : StayRoots R A N (k :: kt) r) (hgaps : (k :: kt).Pairwise fun i j => i + 2 ≤ j)
    (hstay : Stays N k r) (hsize : treesSize (k :: kt) = r + 1) : Roots R A (k :: kt) r := by
  induction kt generalizing k r with
  | nil => trivial
  | cons k' ks ih =>
    have hk := rel_of_pairwise_cons hgaps (mem_cons_self ..)
    have hpos := treesSize_pos k' ks
    rw [treesSize_cons] at hsize
    exact ⟨h.1 hstay, ih h.2 (Pairwise.of_cons hgaps) (hstay.next hk (by omega)) (by omega)⟩

/-! ## The first loop -/

/-- The orders of a heap that is being built: they increase, from the second one on by two at least, and a
tree of order 0 is followed by one of order 1. -/
structure Orders (k : ℕ) (kt : List ℕ) : Prop where
  lt : ∀ j ∈ kt, k < j
  gaps : kt.Pairwise fun i j => i + 2 ≤ j
  zero : k = 0 → ∃ ks, kt = 1 :: ks

theorem Orders.increasing (h : Orders k kt) : (k :: kt).Pairwise (· < ·) :=
  List.pairwise_cons.mpr ⟨h.lt, h.gaps.imp fun hij => by omega⟩

theorem Orders.pos (h : Orders k kt) (hne : ∀ ks, kt ≠ (k + 1) :: ks) : 0 < k := by
  refine Nat.pos_of_ne_zero fun h0 => ?_
  obtain ⟨ks, hks⟩ := h.zero h0
  exact hne ks (h0 ▸ hks)

/-- The state of the first loop: the trees are in order but for the root of the first one, and the roots of
the others that stay increase. -/
structure Building (R : List UInt8 → List UInt8 → Prop) (A : ℕ → List UInt8) (N k : ℕ) (kt : List ℕ)
    (r : ℕ) : Prop where
  orders : Orders k kt
  size : treesSize (k :: kt) = r + 1
  lt : r < N
  children : Children R A k r
  trees : Trees R A kt (r - leonardo k)
  roots : StayRoots R A N kt (r - leonardo k)

section Steps

variable {A : ℕ → List UInt8} {N k r : ℕ} {kt : List ℕ}

theorem Building.singleton (hN : 0 < N) : Building R A N 1 [] 0 :=
  ⟨⟨nofun, Pairwise.nil, nofun⟩, rfl, hN, (tree_of_lt_two (by decide)).children, trivial, trivial⟩

/-- When the heap is the whole array, all its trees stay. -/
theorem Building.roots_of_end (h : Building R A N k kt r) (hr : r = N - 1) :
    Roots R A kt (r - leonardo k) := by
  cases kt with
  | nil => trivial
  | cons k1 ks =>
    have hpos := treesSize_pos k1 ks
    have hsize := h.size
    rw [treesSize_cons] at hsize
    have hk : k < k1 := h.orders.lt k1 (mem_cons_self ..)
    exact h.roots.roots h.orders.gaps (stays_of_end hr hk (by omega)) (by omega)

theorem treesSize_tail_le (hsize : treesSize (k :: kt) = r + 1) : kt ≠ [] → leonardo k ≤ r := by
  intro hne
  obtain ⟨k', ks, rfl⟩ := exists_cons_of_ne_nil hne
  have := treesSize_pos k' ks
  rw [treesSize_cons] at hsize
  omega

/-- The trees after the first one, and their roots, are not touched by what is done in the first one. -/
theorem trees_congr_tail (hsize : treesSize (k :: kt) = r + 1)
    (ht : Trees R A kt (r - leonardo k)) (hr : StayRoots R A N kt (r - leonardo k))
    (heq : ∀ i, i + leonardo k ≤ r → A i = B i) :
    Trees R B kt (r - leonardo k) ∧ StayRoots R B N kt (r - leonardo k) := by
  by_cases hne : kt = []
  · subst hne
    exact ⟨trivial, trivial⟩
  · have hle := treesSize_tail_le hsize hne
    rw [treesSize_cons] at hsize
    exact ⟨ht.congr (fun _ => by omega) fun i hi => heq i (by omega),
      hr.congr fun i hi => heq i (by omega)⟩

/-- The elements outside of a tree are not touched when it is put in order. -/
theorem SiftPath.place_outside {path : List ℕ} (hs : SiftPath R A x k r path)
    (hfit : leonardo k ≤ r + 1) {i : ℕ} (hi : i + leonardo k ≤ r) :
    A i = place A x (r :: path) i := by
  refine (place_of_notMem fun hmem => ?_).symm
  have hpos := leonardo_pos k
  rcases List.mem_cons.mp hmem with rfl | hmem
  · omega
  · have := hs.bounds hfit hmem
    omega

theorem Building.join [IsPreorder (List UInt8) R] {path : List ℕ}
    (h : Building R A N k ((k + 1) :: ks) r) (hs : SiftPath R A (A r) k r path) (hlt : r + 1 < N) :
    Building R (place A (A r) (r :: path)) N (k + 2) ks (r + 1) := by
  have hsize := h.size
  obtain ⟨ht, hr⟩ := trees_congr_tail h.size h.trees h.roots fun i hi =>
    SiftPath.place_outside hs (by rw [treesSize_cons] at hsize; omega) hi
  rw [treesSize_cons, treesSize_cons] at hsize
  have hidx : r + 1 - leonardo (k + 2) = r - leonardo k - leonardo (k + 1) := by
    rw [leonardo_add_two]
    omega
  refine ⟨⟨fun j hj => ?_, Pairwise.of_cons h.orders.gaps, fun h0 => by omega⟩, ?_, hlt, ?_, ?_, ?_⟩
  · have := rel_of_pairwise_cons h.orders.gaps hj
    omega
  · rw [treesSize_cons, leonardo_add_two]
    omega
  · exact ⟨ht.1, hs.tree (by omega) h.children⟩
  · rw [hidx]
    exact ht.2
  · rw [hidx]
    cases ks with
    | nil => trivial
    | cons k2 ks => exact hr.2

theorem Building.push (ho : Orders k kt) (hne : ∀ ks, kt ≠ (k + 1) :: ks)
    (hsize : treesSize (k :: kt) = r + 1) (hlt : r + 1 < N) (ht : Trees R A (k :: kt) r)
    (hr : StayRoots R A N (k :: kt) r) (hk' : k' = if k = 1 then 0 else 1) :
    Building R A N k' (k :: kt) (r + 1) := by
  have hk := ho.pos hne
  have hcase : (k = 1 ∧ k' = 0) ∨ (2 ≤ k ∧ k' = 1) := by
    split at hk' <;> omega
  have hone : leonardo k' = 1 := by
    rcases hcase with ⟨-, rfl⟩ | ⟨-, rfl⟩ <;> rfl
  have hgap : ∀ j ∈ kt, k + 2 ≤ j := by
    intro j hj
    obtain ⟨k1, ks, rfl⟩ := exists_cons_of_ne_nil (ne_nil_of_mem hj)
    have h1 := ho.lt k1 (mem_cons_self ..)
    have h2 : k1 ≠ k + 1 := fun h => hne ks (h ▸ rfl)
    rcases List.mem_cons.mp hj with rfl | hj
    · omega
    · have := rel_of_pairwise_cons ho.gaps hj
      omega
  refine ⟨⟨fun j hj => ?_, List.pairwise_cons.mpr ⟨hgap, ho.gaps⟩, fun h0 => ⟨kt, ?_⟩⟩, ?_, hlt, ?_,
    ?_, ?_⟩
  · rcases List.mem_cons.mp hj with rfl | hj
    · omega
    · have := hgap j hj
      omega
  · obtain rfl : k = 1 := by omega
    rfl
  · rw [treesSize_cons, hone, hsize, add_comm]
  · exact (tree_of_lt_two (by omega)).children
  · rw [hone]
    exact ht
  · rw [hone]
    exact hr

end Steps

/-! ## The bit string in the first loop -/

section Codes

variable {k : ℕ}

theorem orderCode_mod_four (hinc : (k :: kt).Pairwise (· < ·)) :
    orderCode (k :: kt) % 4 = 3 ↔ ∃ ks, kt = (k + 1) :: ks := by
  cases kt with
  | nil =>
    rw [orderCode_singleton]
    simp
  | cons k1 ks =>
    have hodd := orderCode_odd (Pairwise.of_cons hinc)
    have hlt : k < k1 := rel_of_pairwise_cons hinc (mem_cons_self ..)
    rw [orderCode_cons_cons]
    rcases Nat.lt_or_ge k1 (k + 2) with hnear | hfar
    · obtain rfl : k1 = k + 1 := by omega
      rw [Nat.add_sub_cancel_left]
      exact iff_of_true (by omega) ⟨ks, rfl⟩
    · obtain ⟨d, hd⟩ := Nat.exists_eq_add_of_le hfar
      have hpow : 2 ^ (k1 - k) = 4 * 2 ^ d := by
        rw [hd, show k + 2 + d - k = d + 2 by omega]
        ring
      rw [hpow, mul_assoc]
      refine iff_of_false (by omega) ?_
      rintro ⟨ks', heq⟩
      have := (List.cons.inj heq).1
      omega

theorem orderCode_join (hgaps : ∀ j ∈ ks, k + 3 ≤ j) :
    orderCode (k :: (k + 1) :: ks) / 2 ^ 2 % 2 = 0 ∧
      orderCode (k :: (k + 1) :: ks) / 2 ^ 2 + 1 = orderCode ((k + 2) :: ks) := by
  rw [orderCode_cons_cons, Nat.add_sub_cancel_left]
  cases ks with
  | nil =>
    rw [orderCode_singleton]
    exact ⟨rfl, rfl⟩
  | cons k2 ks =>
    obtain ⟨d, hd⟩ := Nat.exists_eq_add_of_le (hgaps k2 (mem_cons_self ..))
    rw [orderCode_cons_cons, orderCode_cons_cons, hd]
    have h1 : k + 3 + d - (k + 1) = d + 2 := by omega
    have h2 : k + 3 + d - (k + 2) = d + 1 := by omega
    rw [h1, h2]
    generalize orderCode ((k + 3 + d) :: ks) = c
    have hsplit : 1 + 2 * (1 + 2 ^ (d + 2) * c) = 3 + 2 ^ 2 * (2 * (2 ^ d * c)) := by ring
    have hpow : 2 ^ (d + 1) * c = 2 * (2 ^ d * c) := by ring
    omega

end Codes

section Build

variable (h : Ready E lp R) {p : Pair} {pshift k r : ℕ} {kt : List ℕ}
  {st : St σ} (hb : Building R (elems E st.mem) E.nel k kt r) (hp : Heap E.arch p pshift k kt)

include h hb

theorem sift_building :
    ∃ st' path, E.sift lp (r * E.width) k st = some st' ∧
      SiftPath R (elems E st.mem) (elems E st.mem r) k r path ∧
      elems E st'.mem = place (elems E st.mem) (elems E st.mem r) (r :: path) ∧
      Rearranged E.nel (elems E st.mem) (elems E st'.mem) := by
  have hsize := hb.size
  have hlt := hb.lt
  rw [treesSize_cons] at hsize
  have hfit : leonardo k ≤ r + 1 := by omega
  obtain ⟨st', path, heq, hpath, hst'⟩ := sift_spec h hlt hfit st
  refine ⟨st', path, heq, hpath, hst', ?_⟩
  rw [hst']
  refine rearranged_place (hpath.nodup hfit) fun i hi => ?_
  rcases List.mem_cons.mp hi with rfl | hi
  · exact hlt
  · have := hpath.bounds hfit hi
    omega

variable [IsPreorder (List UInt8) R]

include hp

/-- **A tree that the next element does not join** is put in order: with the trees before it if it stays,
and by itself if not. -/
theorem settle_spec (hne : ∀ ks, kt ≠ (k + 1) :: ks) (fuel : ℕ) (hfuel : 12 * E.arch.ptrSize ≤ fuel) :
    ∃ st', E.settle lp fuel (E.nel * E.width - E.width) (r * E.width) p pshift st = some st' ∧
      Trees R (elems E st'.mem) (k :: kt) r ∧ StayRoots R (elems E st'.mem) E.nel (k :: kt) r ∧
      Rearranged E.nel (elems E st.mem) (elems E st'.mem) := by
  have hk := hb.orders.pos hne
  have hsize := hb.size
  have hlt := hb.lt
  have hmono : leonardo (k - 1) ≤ leonardo k := leonardo_mono (by omega)
  rw [treesSize_cons] at hsize
  have hrest : E.nel * E.width - E.width - r * E.width = (E.nel - 1 - r) * E.width := by
    rw [Nat.sub_mul, Nat.sub_mul, one_mul]
  unfold Env.settle
  rw [hp.pshift_eq, if_neg (by omega), h.lpAt_eq (by omega), hrest]
  simp only [bind_eq_bind, bind_some]
  have hstay : leonardo (k - 1) * E.width ≥ (E.nel - 1 - r) * E.width ↔ Stays E.nel k r := by
    unfold Stays
    rw [if_neg (by omega)]
    exact ⟨fun hle => Nat.le_of_mul_le_mul_right hle h.width_pos, fun hle => Nat.mul_le_mul_right _ hle⟩
  by_cases hs : Stays E.nel k r
  · rw [if_pos (hstay.mpr hs)]
    -- the trees before this one stay, too
    have hroots : Roots R (elems E st.mem) kt (r - leonardo k) := by
      cases kt with
      | nil => trivial
      | cons k1 ks =>
        have hk1 := hb.orders.lt k1 (mem_cons_self ..)
        have hk1' : k1 ≠ k + 1 := fun heq => hne ks (heq ▸ rfl)
        have hle := treesSize_tail_le hb.size (cons_ne_nil _ _)
        exact hb.roots.roots hb.orders.gaps (hs.next (by omega) hle) (by omega)
    obtain ⟨st', heq, ht, hr, hperm⟩ := trinkle_spec h ⟨hp.increasing, hp.p_eq, rfl⟩ hb.size hlt fuel
      hfuel false st hb.children (fun hf => Bool.noConfusion hf) hb.trees hroots
    exact ⟨st', heq, ht, StayRoots.of_roots hr, hperm.mono (by omega)⟩
  · rw [if_neg (fun hle => hs (hstay.mp hle))]
    obtain ⟨st', path, heq, hpath, hst', hperm⟩ := sift_building h hb
    obtain ⟨ht, hr⟩ := trees_congr_tail hb.size hb.trees hb.roots fun i hi =>
      SiftPath.place_outside hpath (by omega) hi
    rw [← hst'] at ht hr
    refine ⟨st', heq, ⟨?_, ht⟩, ?_, hperm⟩
    · rw [hst']
      exact hpath.tree (by omega) hb.children
    · cases kt with
      | nil => trivial
      | cons k1 ks => exact ⟨fun hs' => absurd hs' hs, hr⟩

/-- **One turn of the first loop** takes one more element into the heap. -/
theorem buildStep_spec (hlt : r + 1 < E.nel) (fuel : ℕ) (hfuel : 12 * E.arch.ptrSize ≤ fuel) :
    ∃ p' k' kt' st', E.buildStep lp fuel (E.nel * E.width - E.width) (r * E.width) p pshift st =
        some (p', k', st') ∧
      Building R (elems E st'.mem) E.nel k' kt' (r + 1) ∧
      Heap E.arch { p' with lo := p'.lo ||| 1 } k' k' kt' ∧
      Rearranged E.nel (elems E st.mem) (elems E st'.mem) := by
  have hcode := h.code_lt_bits hp.increasing (by rw [hb.size]; omega)
  have htest : p.lo &&& 3 = 3 ↔ ∃ ks, kt = (k + 1) :: ks := by
    rw [hp.p_eq, ofNat_lo_and_three, orderCode_mod_four hp.increasing]
  unfold Env.buildStep
  by_cases hjoin : ∃ ks, kt = (k + 1) :: ks
  · rw [if_pos (htest.mpr hjoin), hp.pshift_eq]
    obtain ⟨ks, rfl⟩ := hjoin
    obtain ⟨st', path, heq, hpath, hst', hperm⟩ := sift_building h hb
    have hbits := three_lt_bits E.arch
    have hb' := hb.join hpath hlt
    have hgaps : ∀ j ∈ ks, k + 3 ≤ j := by
      intro j hj
      have := rel_of_pairwise_cons hb.orders.gaps hj
      omega
    obtain ⟨heven, hnext⟩ := orderCode_join hgaps
    rw [heq, hp.p_eq]
    rw [shr_ofNat (by decide) (by omega) hcode]
    refine ⟨_, k + 2, ks, st', rfl, by rw [hst']; exact hb', ⟨hb'.orders.increasing, ?_, rfl⟩, hperm⟩
    rw [ofNat_or_one heven, hnext]
  · rw [if_neg (fun h3 => hjoin (htest.mp h3))]
    have hne : ∀ ks, kt ≠ (k + 1) :: ks := fun ks heq => hjoin ⟨ks, heq⟩
    obtain ⟨st', heq, ht, hr, hperm⟩ := settle_spec h hb hp hne fuel hfuel
    rw [heq, hp.pshift_eq]
    simp only [bind_eq_bind, bind_some]
    have hb' : Building R (elems E st'.mem) E.nel (if k = 1 then 0 else 1) (k :: kt) (r + 1) :=
      Building.push hb.orders hne hb.size hlt ht hr rfl
    -- the new order is the last one before, but for the width of the shift
    have hk' := hb'.orders.lt k (mem_cons_self ..)
    have hcode' := h.code_lt_bits hb'.orders.increasing (by rw [hb'.size]; omega)
    rw [orderCode_cons_cons] at hcode'
    have hshl : shl E.arch p (k - if k = 1 then 0 else 1) =
        some (Pair.ofNat E.arch (orderCode (k :: kt) * 2 ^ (k - if k = 1 then 0 else 1))) := by
      rw [hp.p_eq]
      exact shl_ofNat (by omega) (orderCode_pos k kt) (by rw [mul_comm]; omega)
    have hheap : Heap E.arch { Pair.ofNat E.arch (orderCode (k :: kt) *
        2 ^ (k - if k = 1 then 0 else 1)) with lo := (Pair.ofNat E.arch (orderCode (k :: kt) *
        2 ^ (k - if k = 1 then 0 else 1))).lo ||| 1 } (if k = 1 then 0 else 1)
        (if k = 1 then 0 else 1) (k :: kt) := by
      refine ⟨hb'.orders.increasing, ?_, rfl⟩
      rw [ofNat_or_one ?_, orderCode_cons_cons, mul_comm, add_comm]
      obtain ⟨d, hd⟩ := Nat.exists_eq_succ_of_ne_zero (n := k - if k = 1 then 0 else 1) (by omega)
      rw [hd, pow_succ, ← mul_assoc, Nat.mul_mod_left]
    split_ifs at hshl hheap hb' ⊢ with hone
    · rw [hone] at hshl
      rw [hshl]
      refine ⟨_, 0, k :: kt, st', rfl, hb', ?_, hperm⟩
      rw [hone] at hheap
      rw [hone]
      exact hheap
    · rw [hshl]
      exact ⟨_, 1, k :: kt, st', rfl, hb', hheap, hperm⟩

end Build

/-- **The first loop** makes a heap of the whole array. -/
theorem buildLoop_spec [IsPreorder (List UInt8) R] (h : Ready E lp R) (bound : ℕ)
    (hbound : 12 * E.arch.ptrSize ≤ bound) (fuel : ℕ) {p : Pair} {pshift : ℕ}
    {st : St σ} (hb : Building R (elems E st.mem) E.nel k kt r) (hp : Heap E.arch p pshift k kt)
    (hfuel : E.nel ≤ fuel + r) :
    ∃ p' k' kt' st', E.buildLoop lp bound (E.nel * E.width - E.width) fuel (r * E.width) p pshift st =
        some ((E.nel - 1) * E.width, p', k', st') ∧
      Building R (elems E st'.mem) E.nel k' kt' (E.nel - 1) ∧ Heap E.arch p' k' k' kt' ∧
      Rearranged E.nel (elems E st.mem) (elems E st'.mem) := by
  have hhigh : E.nel * E.width - E.width = (E.nel - 1) * E.width := by
    rw [Nat.sub_mul, one_mul]
  induction fuel generalizing p pshift k kt r st with
  | zero =>
    have := hb.lt
    omega
  | succ fuel ih =>
    have hlt := hb.lt
    rw [Env.buildLoop]
    by_cases hend : r + 1 = E.nel
    · -- the heap has reached the last element
      obtain rfl : r = E.nel - 1 := by omega
      rw [if_neg (by omega), hp.pshift_eq]
      exact ⟨p, k, kt, st, rfl, hb, ⟨hp.increasing, hp.p_eq, rfl⟩, Rearranged.refl _ _⟩
    · have hgo : r * E.width < E.nel * E.width - E.width := by
        rw [hhigh]
        exact Nat.mul_lt_mul_of_pos_right (by omega) h.width_pos
      obtain ⟨p', k', kt', st', hstep, hb', hp', hperm⟩ :=
        buildStep_spec h hb hp (by omega) bound hbound
      have hnext : r * E.width + E.width = (r + 1) * E.width := by
        rw [Nat.succ_mul]
      rw [if_pos hgo, hstep]
      rw [hnext]
      obtain ⟨p'', k'', kt'', st'', hrun, hb'', hp'', hperm'⟩ := ih hb' hp' (by omega)
      exact ⟨p'', k'', kt'', st'', hrun, hb'', hp'', hperm.trans hperm'⟩

/-! ## The last loop -/

/-- The state of the last loop: the heap of the first `r + 1` elements is in order, and the others are
sorted and not smaller than these. -/
structure Draining (R : List UInt8 → List UInt8 → Prop) (A : ℕ → List UInt8) (N k : ℕ) (kt : List ℕ)
    (r : ℕ) : Prop where
  increasing : (k :: kt).Pairwise (· < ·)
  zero : k = 0 → ∃ ks, kt = 1 :: ks
  size : treesSize (k :: kt) = r + 1
  lt : r < N
  trees : Trees R A (k :: kt) r
  roots : Roots R A (k :: kt) r
  sorted : ∀ i j, i < j → r < j → j < N → R (A i) (A j)

/-- The largest element of the heap is where it belongs. -/
theorem Draining.sorted_root [IsPreorder (List UInt8) R]
    (h : Draining R A N k kt r) : ∀ i j, i < j → r ≤ j → j < N → R (A i) (A j) := by
  intro i j hij hrj hj
  rcases hrj.eq_or_lt with rfl | hlt
  · exact le_first_root (cons_ne_nil _ _) h.trees h.roots h.size hij.le
  · exact h.sorted i j hij hlt hj

/-- What is sorted beyond the heap stays so when the elements before are rearranged. -/
theorem sorted_of_rearranged (h : Rearranged r A B) (hs : ∀ i j, i < j → r ≤ j → j < N → R (A i) (A j)) :
    ∀ i j, i < j → r ≤ j → j < N → R (B i) (B j) := by
  intro i j hij hrj hj
  rw [h.eq_of_le hrj]
  rcases Nat.lt_or_ge i r with hi | hi
  · obtain ⟨i', hi', heq⟩ := h.exists_lt hi
    rw [heq]
    exact hs i' j (by omega) hrj hj
  · rw [h.eq_of_le hi]
    exact hs i j hij hrj hj

theorem Draining.drop [IsPreorder (List UInt8) R] {k1 : ℕ}
    (h : Draining R A N k (k1 :: ks) r) (hk : k ≤ 1) : Draining R A N k1 ks (r - 1) := by
  have hone : leonardo k = 1 := by
    interval_cases k <;> rfl
  have hsize := h.size
  have hlt := h.lt
  have hpos := treesSize_pos k1 ks
  have hk1 : k < k1 := rel_of_pairwise_cons h.increasing (mem_cons_self ..)
  rw [treesSize_cons] at hsize
  obtain ⟨-, ht⟩ := h.trees
  obtain ⟨-, hr⟩ := h.roots
  rw [hone] at ht hr
  exact ⟨Pairwise.of_cons h.increasing, fun h0 => by omega, by omega, by omega, ht, hr,
    fun i j hij hrj hj => h.sorted_root i j hij (by omega) hj⟩

theorem twelve_ptrSize_le (a : Arch) : 12 * a.ptrSize ≤ 2 * a.bits := by
  cases a <;> decide

section Codes

variable {k : ℕ} {kt : List ℕ}

/-- The code of a heap without the root and the right child of its first tree. -/
theorem orderCode_left (hinc : ((k + 2) :: kt).Pairwise (· < ·)) :
    orderCode ((k + 1) :: kt) = 2 * orderCode ((k + 2) :: kt) - 1 := by
  cases kt with
  | nil => rfl
  | cons k1 ks =>
    have hlt : k + 2 < k1 := rel_of_pairwise_cons hinc (mem_cons_self ..)
    have hexp : k1 - (k + 1) = k1 - (k + 2) + 1 := by omega
    rw [orderCode_cons_cons, orderCode_cons_cons, hexp, pow_succ, mul_comm (2 ^ _) 2, mul_assoc]
    omega

theorem orderCode_split (hinc : ((k + 2) :: kt).Pairwise (· < ·)) :
    orderCode (k :: (k + 1) :: kt) = 4 * orderCode ((k + 2) :: kt) - 1 := by
  have hpos := orderCode_pos (k + 2) kt
  rw [orderCode_cons_cons, orderCode_left hinc, Nat.add_sub_cancel_left]
  omega

theorem increasing_left (hinc : ((k + 2) :: kt).Pairwise (· < ·)) :
    ((k + 1) :: kt).Pairwise (· < ·) := by
  obtain ⟨hlt, hkt⟩ := List.pairwise_cons.mp hinc
  exact List.pairwise_cons.mpr ⟨fun j hj => by have := hlt j hj; omega, hkt⟩

theorem increasing_split (hinc : ((k + 2) :: kt).Pairwise (· < ·)) :
    (k :: (k + 1) :: kt).Pairwise (· < ·) := by
  refine List.pairwise_cons.mpr ⟨fun j hj => ?_, increasing_left hinc⟩
  rcases List.mem_cons.mp hj with rfl | hj
  · omega
  · have := rel_of_pairwise_cons hinc hj
    omega

end Codes

section Drain

variable [IsPreorder (List UInt8) R] (h : Ready E lp R) {p : Pair} {pshift k r : ℕ} {kt : List ℕ}
  {st : St σ}

include h

/-- The children of the first tree become trees of the heap. -/
theorem drainStep_split (hd : Draining R (elems E st.mem) E.nel (k + 2) kt r)
    (hp : Heap E.arch p pshift (k + 2) kt) (fuel : ℕ) (hfuel : 12 * E.arch.ptrSize ≤ fuel) :
    ∃ p' st', E.drainStep lp fuel (r * E.width) p pshift st = some (p', k, st') ∧
      Draining R (elems E st'.mem) E.nel k ((k + 1) :: kt) (r - 1) ∧
      Heap E.arch p' k k ((k + 1) :: kt) ∧
      Rearranged E.nel (elems E st.mem) (elems E st'.mem) := by
  have hinc := hd.increasing
  have hinc' := increasing_split hinc
  have hpos' := leonardo_pos (k + 1)
  have hlt := hd.lt
  have hsize := hd.size
  rw [treesSize_cons, leonardo_add_two] at hsize
  have hsize' : treesSize (k :: (k + 1) :: kt) = r - 1 + 1 := by
    rw [treesSize_cons, treesSize_cons]
    omega
  have hsizeL : treesSize ((k + 1) :: kt) = r - 1 - leonardo k + 1 := by
    rw [treesSize_cons]
    omega
  have hcpos := orderCode_pos (k + 2) kt
  have hodd := orderCode_odd hinc
  -- the code grows by two bits, and has room for them
  have hcode := h.code_lt hinc' (by omega)
  have hroom : 4 * orderCode ((k + 2) :: kt) < 2 ^ (2 * E.arch.bits) := by
    rw [orderCode_split hinc] at hcode
    have hle : 2 ^ (12 * E.arch.ptrSize - 1 - k) * 2 ≤ 2 ^ (2 * E.arch.bits) := by
      rw [← pow_succ]
      have := twelve_ptrSize_le E.arch
      have := bits_pos E.arch
      exact Nat.pow_le_pow_right (by decide) (by omega)
    omega
  unfold Env.drainStep
  rw [hp.pshift_eq, hp.p_eq, if_neg (by omega), shl_ofNat (by decide) hcpos (by omega)]
  simp only [bind_eq_bind, bind_some, Nat.add_sub_cancel]
  rw [ofNat_xor_seven (by omega), shr_ofNat (by decide) (by have := three_lt_bits E.arch; omega)
    (by omega)]
  have hshr : (orderCode ((k + 2) :: kt) * 2 ^ 2 - 1) / 2 ^ 1 = orderCode ((k + 1) :: kt) := by
    rw [orderCode_left hinc]
    omega
  rw [hshr]
  rw [h.lpAt_eq (by omega)]
  simp only [bind_some]
  rw [ptrSub_mul (by omega)]
  simp only [bind_some]
  rw [ptrSub_width (by omega)]
  simp only [bind_some]
  -- the left child
  obtain ⟨⟨-, -, htl, htr⟩, htk⟩ := hd.trees
  have hroots := hd.roots
  have hrest : r - 1 - leonardo k - leonardo (k + 1) = r - leonardo (k + 2) := by
    rw [leonardo_add_two]
    omega
  have hswap : r - leonardo k - 1 = r - 1 - leonardo k := by omega
  have hpL : Heap E.arch (Pair.ofNat E.arch (orderCode ((k + 1) :: kt))) (k + 1) (k + 1) kt :=
    ⟨increasing_left hinc, rfl, rfl⟩
  obtain ⟨st1, heq1, ht1, hr1, hperm1⟩ := trinkle_spec h hpL hsizeL (by omega) fuel hfuel true st
    htl.children (fun _ => htl) (by rw [hrest]; exact htk)
    (by
      rw [hrest]
      cases kt with
      | nil => trivial
      | cons _ _ => exact hroots.2)
  rw [hswap, heq1]
  rw [shl_ofNat (by decide) (orderCode_pos _ _) (by rw [orderCode_left hinc]; omega)]
  simp only [bind_some]
  rw [ofNat_or_one (by omega), ptrSub_width (by omega)]
  simp only [bind_some]
  have hcodeR : orderCode ((k + 1) :: kt) * 2 ^ 1 + 1 = orderCode (k :: (k + 1) :: kt) := by
    rw [orderCode_split hinc]
    omega
  rw [hcodeR]
  -- the right child, which the first one has left alone
  have htr1 : Tree R (elems E st1.mem) k (r - 1) :=
    htr.congr (by omega) fun i hi hi' => (hperm1.eq_of_le (by omega)).symm
  have hpR : Heap E.arch (Pair.ofNat E.arch (orderCode (k :: (k + 1) :: kt))) k k ((k + 1) :: kt) :=
    ⟨hinc', rfl, rfl⟩
  obtain ⟨st2, heq2, ht2, hr2, hperm2⟩ := trinkle_spec h hpR hsize' (by omega) fuel hfuel true st1
    htr1.children (fun _ => htr1) ht1 hr1
  rw [heq2]
  have hperm : Rearranged r (elems E st.mem) (elems E st2.mem) :=
    (hperm1.mono (by omega)).trans (hperm2.mono (by omega))
  refine ⟨_, st2, rfl, ⟨hinc', fun h0 => ⟨kt, by rw [h0]⟩, hsize', by omega, ht2, hr2, ?_⟩,
    hpR, hperm.mono (by omega)⟩
  intro i j hij hrj hj
  exact sorted_of_rearranged hperm hd.sorted_root i j hij (by omega) hj

/-- **One turn of the last loop** takes the largest element off the heap. -/
theorem drainStep_spec (hd : Draining R (elems E st.mem) E.nel k kt r)
    (hp : Heap E.arch p pshift k kt) (hgo : ¬ (k = 1 ∧ kt = [])) (fuel : ℕ) (hfuel : 12 * E.arch.ptrSize ≤ fuel) :
    ∃ p' k' kt' st', E.drainStep lp fuel (r * E.width) p pshift st = some (p', k', st') ∧
      Draining R (elems E st'.mem) E.nel k' kt' (r - 1) ∧ Heap E.arch p' k' k' kt' ∧
      Rearranged E.nel (elems E st.mem) (elems E st'.mem) ∧ 0 < r := by
  have hsize := hd.size
  have hlt := hd.lt
  by_cases hk : k ≤ 1
  · obtain ⟨k1, ks, rfl⟩ : ∃ k1 ks, kt = k1 :: ks := by
      cases kt with
      | cons k1 ks => exact ⟨k1, ks, rfl⟩
      | nil =>
        rcases Nat.eq_zero_or_pos k with h0 | h1
        · obtain ⟨ks, hks⟩ := hd.zero h0
          exact ⟨1, ks, hks⟩
        · exact absurd ⟨by omega, rfl⟩ hgo
    have hpos := leonardo_pos k
    have hpos' := treesSize_pos k1 ks
    obtain ⟨htrail, p', hshr, hp'⟩ := hp.tail h (by omega)
    unfold Env.drainStep
    rw [treesSize_cons] at hsize
    rw [if_pos (by rw [hp.pshift_eq]; exact hk)]
    simp only [bind_eq_bind]
    rw [hshr, htrail]
    exact ⟨p', k1, ks, st, rfl, hd.drop hk, hp', Rearranged.refl _ _, by omega⟩
  · obtain ⟨i, rfl⟩ := Nat.exists_eq_add_of_le' (Nat.lt_of_not_le hk)
    obtain ⟨p', st', heq, hd', hp', hperm⟩ := drainStep_split h hd hp fuel hfuel
    have hpos := leonardo_pos i
    rw [treesSize_cons, leonardo_add_two] at hsize
    exact ⟨p', i, (i + 1) :: kt, st', heq, hd', hp', hperm, by omega⟩

end Drain

theorem ofNat_one {a : Arch} : Pair.ofNat a 1 = ⟨1, 0⟩ := by
  cases a <;> rfl

theorem drainLoop_spec [IsPreorder (List UInt8) R] (h : Ready E lp R) (bound : ℕ)
    (hbound : 12 * E.arch.ptrSize ≤ bound) (fuel : ℕ) {p : Pair} {pshift : ℕ}
    {st : St σ} (hd : Draining R (elems E st.mem) E.nel k kt r) (hp : Heap E.arch p pshift k kt) (hfuel : r < fuel) :
    ∃ st', E.drainLoop lp bound fuel (r * E.width) p pshift st = some st' ∧
      (∀ i j, i < j → j < E.nel → R (elems E st'.mem i) (elems E st'.mem j)) ∧
      Rearranged E.nel (elems E st.mem) (elems E st'.mem) := by
  induction fuel generalizing p pshift k kt r st with
  | zero => omega
  | succ fuel ih =>
    have htest : pshift ≠ 1 ∨ p.lo ≠ 1 ∨ p.hi ≠ 0 ↔ ¬ (k = 1 ∧ kt = []) := by
      rw [hp.pshift_eq, hp.p_eq, ofNat_eq_one_iff, not_and_or, ← orderCode_eq_one_iff]
    rw [Env.drainLoop]
    by_cases hgo : k = 1 ∧ kt = []
    · -- a single element is left, the smallest one
      obtain ⟨rfl, rfl⟩ := hgo
      have hzero : r = 0 := by
        have hsize : leonardo 1 + treesSize [] = r + 1 := hd.size
        exact (Nat.succ.inj hsize).symm
      rw [if_neg fun htrue => htest.mp htrue ⟨rfl, rfl⟩]
      exact ⟨st, rfl, fun i j hij hj => hd.sorted i j hij (by omega) hj, Rearranged.refl _ _⟩
    · obtain ⟨p', k', kt', st', hstep, hd', hp', hperm, hpos⟩ :=
        drainStep_spec h hd hp hgo bound hbound
      rw [if_pos (htest.mpr hgo), hstep]
      rw [ptrSub_width hpos]
      obtain ⟨st'', hrun, hsorted, hperm'⟩ := ih hd' hp' (by omega)
      exact ⟨st'', hrun, hsorted, hperm.trans hperm'⟩

/-- **The sort** rearranges the elements and leaves them in order. -/
theorem qsortR_spec [IsPreorder (List UInt8) R] (hR : Judges E R) (hw : 0 < E.width)
    (hnel : 0 < E.nel) (hsize : E.nel * E.width < 2 ^ (E.arch.bits - 1)) (junk : ℕ → ℕ) (fuel : ℕ)
    (hfuel : 12 * E.arch.ptrSize + E.nel ≤ fuel) (st : St σ) :
    ∃ st', E.qsortR junk fuel st = some st' ∧
      (∀ i j, i < j → j < E.nel → R (elems E st'.mem i) (elems E st'.mem j)) ∧
      Rearranged E.nel (elems E st.mem) (elems E st'.mem) := by
  obtain ⟨lp, hlp, hlp'⟩ := lpLoop_spec hw hnel hsize junk fuel (by omega)
  have h : Ready E lp R := ⟨hw, hsize, hlp', hR⟩
  have hpow : 2 ^ (E.arch.bits - 1) ≤ 2 ^ E.arch.bits :=
    Nat.pow_le_pow_right (by decide) (Nat.sub_le _ _)
  have hwrap : E.arch.wrap (E.width * E.nel) = E.nel * E.width := by
    rw [mul_comm]
    exact Arch.wrap_of_lt (by omega)
  have hpos : E.nel * E.width ≠ 0 := Nat.mul_ne_zero hnel.ne' hw.ne'
  -- the heap starts with a tree of one element
  have hb : Building R (elems E st.mem) E.nel 1 [] 0 := Building.singleton hnel
  have hp : Heap E.arch ⟨1, 0⟩ 1 1 [] := ⟨pairwise_singleton _ _, ofNat_one.symm, rfl⟩
  obtain ⟨p, k, kt, st1, hrun1, hb1, hp1, hperm1⟩ :=
    buildLoop_spec h fuel (by omega) fuel hb hp (by omega)
  -- its last root is carried to its place, the other ones are in theirs
  obtain ⟨st2, hrun2, ht2, hr2, hperm2⟩ := trinkle_spec h hp1 hb1.size (by omega) fuel (by omega) false
    st1 hb1.children nofun hb1.trees (hb1.roots_of_end rfl)
  have hd : Draining R (elems E st2.mem) E.nel k kt (E.nel - 1) :=
    ⟨hp1.increasing, hb1.orders.zero, hb1.size, by omega, ht2, hr2, fun i j _ hrj hj => by omega⟩
  obtain ⟨st3, hrun3, hsorted, hperm3⟩ := drainLoop_spec h fuel (by omega) fuel hd hp1 (by omega)
  refine ⟨st3, ?_, hsorted, (hperm1.trans (hperm2.mono (by omega))).trans hperm3⟩
  unfold Env.qsortR
  rw [zero_mul] at hrun1
  rw [hwrap, if_neg hpos, hlp]
  simp only [bind_eq_bind, bind_some]
  rw [hrun1]
  simp only [bind_some]
  rw [hrun2]
  exact hrun3

/-! ## The sort of an array -/

/-- The elements of the array, in their order. -/
def array (E : Env σ) (mem : ℕ → UInt8) : List (List UInt8) := (List.range E.nel).map (elems E mem)

/-- The comparison function is the total preorder `le` of the elements of the width of the array. -/
structure TotalPreorder (E : Env σ) (le : List UInt8 → List UInt8 → Prop) : Prop where
  cmp_nonpos : ∀ s x y, x.length = E.width → y.length = E.width → ((E.cmp s x y).1 ≤ 0 ↔ le x y)
  cmp_nonneg : ∀ s x y, x.length = E.width → y.length = E.width → (0 ≤ (E.cmp s x y).1 ↔ le y x)
  trans : ∀ x y z, x.length = E.width → y.length = E.width → z.length = E.width →
    le x y → le y z → le x z

namespace TotalPreorder

variable {le : List UInt8 → List UInt8 → Prop}

theorem refl (h : TotalPreorder E le) (s : σ) (hx : x.length = E.width) : le x x := by
  rcases le_total (E.cmp s x x).1 0 with hle | hge
  · exact (h.cmp_nonpos s x x hx hx).mp hle
  · exact (h.cmp_nonneg s x x hx hx).mp hge

/-- The preorder on the lists that are not elements too: they are cut, or filled with zeros. -/
def extend (E : Env σ) (le : List UInt8 → List UInt8 → Prop) (x y : List UInt8) : Prop :=
  le (x.takeD E.width 0) (y.takeD E.width 0)

theorem extend_iff {y : List UInt8} (hx : x.length = E.width) (hy : y.length = E.width) :
    extend E le x y ↔ le x y := by
  unfold extend
  rw [takeD_eq_take 0 hx.ge, takeD_eq_take 0 hy.ge, ← hx, take_length, hx, ← hy,
    take_length]

theorem isPreorder (h : TotalPreorder E le) (s : σ) : IsPreorder (List UInt8) (extend E le) where
  refl _ := h.refl s (takeD_length ..)
  trans _ _ _ := h.trans _ _ _ (takeD_length ..) (takeD_length ..) (takeD_length ..)

theorem judges (h : TotalPreorder E le) : Judges E (extend E le) := by
  intro s x y hx hy
  rw [extend_iff hx hy, extend_iff hy hx]
  exact ⟨(h.cmp_nonpos s x y hx hy).mp, (h.cmp_nonneg s x y hx hy).mp⟩

end TotalPreorder

/-- **Smoothsort sorts.** Whatever the width of the elements, and for every comparison function that is a
total preorder of them, the sort of an array ends, and leaves a permutation of the array that is in
order. The array is an object, so that its size is at most `PTRDIFF_MAX`. -/
theorem qsort_sorts (E : Env σ) (le : List UInt8 → List UInt8 → Prop) (hle : TotalPreorder E le)
    (hsize : E.nel * E.width < 2 ^ (E.arch.bits - 1)) (junk : ℕ → ℕ) (fuel : ℕ)
    (hfuel : 12 * E.arch.ptrSize + E.nel ≤ fuel) (st : St σ) :
    ∃ st', E.qsortR junk fuel st = some st' ∧ (array E st'.mem).Perm (array E st.mem) ∧
      (array E st'.mem).Pairwise le := by
  have hpairwise : ∀ mem, (∀ i j, i < j → j < E.nel → le (elems E mem i) (elems E mem j)) →
      (array E mem).Pairwise le := by
    intro mem hs
    refine List.pairwise_map.mpr (List.pairwise_lt_range.imp_of_mem ?_)
    intro i j _ hj hij
    exact hs i j hij (List.mem_range.mp hj)
  rcases Nat.eq_zero_or_pos (E.nel * E.width) with hzero | hpos
  · -- there is no element, or the elements have no bytes
    refine ⟨st, ?_, List.Perm.refl _, hpairwise st.mem fun i j hij hj => ?_⟩
    · unfold Env.qsortR
      rw [mul_comm, hzero]
      rfl
    · have hw : E.width = 0 := (Nat.mul_eq_zero.mp hzero).resolve_left (by omega)
      have hnil : ∀ n, elems E st.mem n = [] := fun n => List.length_eq_zero_iff.mp (by
        rw [length_elems, hw])
      rw [hnil j, ← hnil i]
      exact hle.refl st.s (length_elems ..)
  · have hpre := hle.isPreorder st.s
    obtain ⟨st', hrun, hsorted, hperm⟩ := qsortR_spec hle.judges (Nat.pos_of_mul_pos_left hpos)
      (Nat.pos_of_mul_pos_right hpos) hsize junk fuel hfuel st
    refine ⟨st', hrun, hperm.perm, hpairwise st'.mem fun i j hij hj => ?_⟩
    exact (TotalPreorder.extend_iff (length_elems ..) (length_elems ..)).mp (hsorted i j hij hj)

/-- Three elements of one byte, compared by the bytes. -/
def threeBytes : Env Unit where
  arch := .x86_64
  nel := 3
  width := 1
  cmp := fun s x y => ((x.headD 0).toNat - (y.headD 0).toNat, s)

/-- An array of three bytes is sorted. -/
theorem qsort_sorts_three_bytes :
    ∃ st', threeBytes.qsortR (fun _ => 0) 99 ⟨fun i => if i = 0 then 3 else if i = 1 then 1 else 2, ()⟩ =
        some st' ∧
      (array threeBytes st'.mem).Perm [[3], [1], [2]] ∧
      (array threeBytes st'.mem).Pairwise fun x y => (x.headD 0).toNat ≤ (y.headD 0).toNat := by
  refine qsort_sorts threeBytes _ ⟨?_, ?_, ?_⟩ (by decide) (fun _ => 0) 99 (by decide) _
  · intro s x y _ _
    simp only [threeBytes]
    omega
  · intro s x y _ _
    simp only [threeBytes]
    omega
  · intro x y z _ _ _ hxy hyz
    exact hxy.trans hyz

/-! ## Functions that return anything -/

/-- The relation that always holds. -/
def Anything (_ _ : List UInt8) : Prop := True

instance isPreorderAnything : IsPreorder (List UInt8) Anything where
  refl _ := trivial
  trans _ _ _ _ _ := trivial

/-- Every comparison function is consistent with it: this says nothing of the order of the elements, and the shape of
the heap does not depend on it. -/
theorem judges_anything (E : Env σ) : Judges E Anything := fun _ _ _ _ _ => ⟨fun _ => trivial, fun _ => trivial⟩

/-- **Smoothsort is safe for every comparison function**, whatever it returns in each call. The sort ends without one of
the steps that are `none`: only elements of the array are compared and moved, no more entries of `ar` are stored than
it has, with the one for `tmp`, and `lp` is only used below its size; and the array is a permutation of what it was. -/
theorem qsort_permutes (E : Env σ) (hsize : E.nel * E.width < 2 ^ (E.arch.bits - 1)) (junk : ℕ → ℕ) (fuel : ℕ)
    (hfuel : 12 * E.arch.ptrSize + E.nel ≤ fuel) (st : St σ) :
    ∃ st', E.qsortR junk fuel st = some st' ∧ (array E st'.mem).Perm (array E st.mem) := by
  rcases Nat.eq_zero_or_pos (E.nel * E.width) with hzero | hpos
  · -- nothing is done
    refine ⟨st, ?_, List.Perm.refl _⟩
    unfold Env.qsortR
    rw [mul_comm, hzero]
    rfl
  · obtain ⟨st', hrun, -, hperm⟩ := qsortR_spec (judges_anything E) (Nat.pos_of_mul_pos_left hpos)
      (Nat.pos_of_mul_pos_right hpos) hsize junk fuel hfuel st
    exact ⟨st', hrun, hperm.perm⟩

/-- Three elements of one byte, and a function that changes its mind with every call. -/
def fickle : Env Bool where
  arch := .i386
  nel := 3
  width := 1
  cmp := fun s _ _ => (if s then 1 else -1, !s)

theorem qsort_permutes_fickle :
    ∃ st', fickle.qsortR (fun _ => 0) 51 ⟨fun i => if i = 0 then 3 else if i = 1 then 1 else 2, true⟩ = some st' ∧
      (array fickle st'.mem).Perm [[3], [1], [2]] :=
  qsort_permutes fickle (by decide) (fun _ => 0) 51 (by decide) _

end Leblibc.Qsort

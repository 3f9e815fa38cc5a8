import Leblibc.Stdlib.QsortMoves

/-!
# `sift` and `trinkle`

For every comparison function the two functions stay within the array, within `lp` and within `ar`, and
move the elements along a path of the heap; with a function that is consistent with a preorder they put a
tree, or all the trees up to it, in order. The comparison function is consistent with a relation `R`
throughout, which is the relation that always holds where nothing is known of the function.

## Main results

* `sift_spec`: `sift` moves an element down its tree
* `trinkle_spec`: `trinkle` puts a heap in order
-/

namespace Leblibc.Qsort

open List Option

open Leblibc.Lib

variable {σ : Type} {E : Env σ} {lp : ℕ → ℕ} {R : List UInt8 → List UInt8 → Prop}

/-- What the functions that move elements rely on. -/
structure Ready (E : Env σ) (lp : ℕ → ℕ) (R : List UInt8 → List UInt8 → Prop) : Prop where
  width_pos : 0 < E.width
  size_lt : E.nel * E.width < 2 ^ (E.arch.bits - 1)
  lp_eq : ∀ k, leonardo k ≤ E.nel → lp k = leonardo k * E.width
  judges : Judges E R

variable {k i : ℕ} {l : List ℕ} {x r : ℕ} {kt : List ℕ} {p : Pair} {pshift : ℕ}

namespace Ready

theorem order_lt (h : Ready E lp R) (hk : leonardo k ≤ E.nel) : k + 1 < 12 * E.arch.ptrSize := by
  apply lt_of_leonardo_le
  have : E.nel ≤ E.nel * E.width := Nat.le_mul_of_pos_right _ h.width_pos
  have := h.size_lt
  omega

theorem lpAt_eq (h : Ready E lp R) (hk : leonardo k ≤ E.nel) :
    E.lpAt lp k = some (leonardo k * E.width) := by
  rw [Env.lpAt, if_pos (by have := h.order_lt hk; omega), h.lp_eq k hk]

end Ready

theorem ptrSub_mul {j w : ℕ} (h : j ≤ i) : ptrSub (i * w) (j * w) = some ((i - j) * w) := by
  rw [ptrSub, if_pos (Nat.mul_le_mul_right w h), Nat.sub_mul]

theorem ptrSub_width {w : ℕ} (h : 0 < i) : ptrSub (i * w) w = some ((i - 1) * w) := by
  have := ptrSub_mul (j := 1) (w := w) h
  rwa [one_mul] at this

/-! ## Tests -/

section Tests

variable (h : Ready E lp R) (st : St σ) {x y z : ℕ} (hx : x < E.nel) (hy : y < E.nel) (hz : z < E.nel)

include h hx hy hz

theorem geBoth_spec :
    ∃ b s, E.geBoth st (x * E.width) (y * E.width) (z * E.width) = some (b, { st with s := s }) ∧
      (b = true → R (elems E st.mem y) (elems E st.mem x) ∧ R (elems E st.mem z) (elems E st.mem x)) ∧
      (b = false →
        R (elems E st.mem x) (elems E st.mem y) ∨ R (elems E st.mem x) (elems E st.mem z)) := by
  obtain ⟨c, s, heq, hle, hge⟩ := compare_spec h.judges h.width_pos st hx hy
  unfold Env.geBoth
  rw [heq]
  simp only [bind_eq_bind, bind_some]
  by_cases hc : c ≥ 0
  · obtain ⟨c', s', heq', hle', hge'⟩ := compare_spec h.judges h.width_pos { st with s := s } hx hz
    rw [if_pos hc, heq']
    refine ⟨_, s', rfl, fun hb => ⟨hge hc, hge' (of_decide_eq_true hb)⟩, fun hb => ?_⟩
    exact Or.inr (hle' (by have := of_decide_eq_false hb; omega))
  · rw [if_neg hc]
    exact ⟨false, s, rfl, fun hb => Bool.noConfusion hb, fun _ => Or.inl (hle (by omega))⟩

theorem geAny_spec :
    ∃ b s, E.geAny st (y * E.width) (z * E.width) (x * E.width) = some (b, { st with s := s }) ∧
      (b = true → R (elems E st.mem x) (elems E st.mem y) ∨ R (elems E st.mem x) (elems E st.mem z)) ∧
      (b = false →
        R (elems E st.mem y) (elems E st.mem x) ∧ R (elems E st.mem z) (elems E st.mem x)) := by
  obtain ⟨c, s, heq, hle, hge⟩ := compare_spec h.judges h.width_pos st hy hx
  unfold Env.geAny
  rw [heq]
  simp only [bind_eq_bind, bind_some]
  by_cases hc : c ≥ 0
  · rw [if_pos hc]
    exact ⟨true, s, rfl, fun _ => Or.inl (hge hc), fun hb => Bool.noConfusion hb⟩
  · obtain ⟨c', s', heq', hle', hge'⟩ := compare_spec h.judges h.width_pos { st with s := s } hz hx
    rw [if_neg hc, heq']
    refine ⟨_, s', rfl, fun hb => Or.inr (hge' (of_decide_eq_true hb)), fun hb => ?_⟩
    exact ⟨hle (by omega), hle' (by have := of_decide_eq_false hb; omega)⟩

end Tests

/-! ## `sift` -/

theorem push_map (h : l.length < 14 * E.arch.ptrSize + 1) :
    E.push (l.map (· * E.width)) (i * E.width) = some ((l ++ [i]).map (· * E.width)) := by
  rw [Env.push, length_map, if_pos h, map_append, map_singleton]

theorem siftLoop_spec (h : Ready E lp R) (hx : x < E.nel) (hr : r < E.nel)
    (hfit : leonardo k ≤ r + 1) (hl : l.length + k ≤ 14 * E.arch.ptrSize + 1) (st : St σ) :
    ∃ path s, E.siftLoop lp (x * E.width) k (r * E.width) (l.map (· * E.width)) st =
        some ((l ++ path).map (· * E.width), { st with s := s }) ∧
      SiftPath R (elems E st.mem) (elems E st.mem x) k r path := by
  induction k using leonardo.induct generalizing r l st with
  | case1 => exact ⟨[], st.s, by rw [append_nil]; rfl, SiftPath.leaf (by decide)⟩
  | case2 => exact ⟨[], st.s, by rw [append_nil]; rfl, SiftPath.leaf (by decide)⟩
  | case3 k ih1 ih2 =>
    have hpos' := leonardo_pos (k + 1)
    rw [leonardo_add_two] at hfit
    obtain ⟨b, s, heq, htrue, hfalse⟩ := geBoth_spec h st (y := r - 1 - leonardo k)
      (z := r - 1) hx (by omega) (by omega)
    rw [Env.siftLoop, ptrSub_width (by omega)]
    simp only [bind_eq_bind]
    rw [h.lpAt_eq (by omega)]
    simp only [bind_some]
    rw [ptrSub_mul (by omega)]
    simp only [bind_some]
    rw [heq]
    simp only [bind_some]
    cases b with
    | true =>
      obtain ⟨h1, h2⟩ := htrue rfl
      exact ⟨[], s, by rw [if_pos rfl, append_nil], SiftPath.stop h1 h2⟩
    | false =>
      have hx' := hfalse rfl
      rw [if_neg Bool.false_ne_true]
      obtain ⟨c, s', heq', hle, hge⟩ := compare_spec h.judges h.width_pos { st with s := s }
        (i := r - 1 - leonardo k) (j := r - 1) (by omega) (by omega)
      rw [heq']
      simp only [bind_some]
      split_ifs with hc
      · rw [push_map (by omega)]
        simp only [bind_some]
        obtain ⟨path, s'', hrun, hpath⟩ := ih2 (r := r - 1 - leonardo k) (by omega) (by omega)
          (l := l ++ [r - 1 - leonardo k]) (by rw [length_append, length_singleton]; omega)
          { st with s := s' }
        refine ⟨(r - 1 - leonardo k) :: path, s'', ?_, SiftPath.left hx' (hge hc) hpath⟩
        rw [hrun, append_assoc, singleton_append]
      · rw [push_map (by omega)]
        simp only [bind_some]
        obtain ⟨path, s'', hrun, hpath⟩ := ih1 (r := r - 1) (by omega) (by omega)
          (l := l ++ [r - 1]) (by rw [length_append, length_singleton]; omega)
          { st with s := s' }
        refine ⟨(r - 1) :: path, s'', ?_, SiftPath.right hx' (hle (by omega)) hpath⟩
        rw [hrun, append_assoc, singleton_append]

/-- **`sift`** moves the element at the root of a tree down a path in it. -/
theorem sift_spec (h : Ready E lp R) (hr : r < E.nel) (hfit : leonardo k ≤ r + 1) (st : St σ) :
    ∃ st' path, E.sift lp (r * E.width) k st = some st' ∧
      SiftPath R (elems E st.mem) (elems E st.mem r) k r path ∧
      elems E st'.mem = place (elems E st.mem) (elems E st.mem r) (r :: path) := by
  have horder := h.order_lt (k := k) (by omega)
  obtain ⟨path, s, hrun, hpath⟩ := siftLoop_spec h hr hr hfit (l := [r])
    (by rw [length_singleton]; omega) st
  have hlen := hpath.length_le
  have hmem : ∀ i ∈ r :: path, i < E.nel := by
    intro i hi
    rcases List.mem_cons.mp hi with rfl | hi
    · exact hr
    · have := hpath.bounds hfit hi
      omega
  obtain ⟨mem', hcycle, helems⟩ := cycle_spec h.width_pos (hpath.nodup hfit) hmem (by omega)
    { st with s := s }
  refine ⟨{ mem := mem', s := s }, path, ?_, hpath, helems⟩
  unfold Env.sift
  rw [show [r * E.width] = [r].map (· * E.width) from rfl, hrun]
  exact hcycle

/-! ## The bit string of a heap -/

/-- The bit string and the order of the first tree code the orders `ks`, which increase. -/
structure Heap (a : Arch) (p : Pair) (pshift : ℕ) (k : ℕ) (kt : List ℕ) : Prop where
  increasing : (k :: kt).Pairwise (· < ·)
  p_eq : p = Pair.ofNat a (orderCode (k :: kt))
  pshift_eq : pshift = k

/-- The code of the orders of trees that the array has room for fits two words. -/
theorem Ready.code_lt (h : Ready E lp R) (hinc : (k :: kt).Pairwise (· < ·)) (hsize : treesSize (k :: kt) ≤ E.nel) :
    orderCode (k :: kt) < 2 ^ (12 * E.arch.ptrSize - 1 - k) := by
  apply orderCode_lt hinc
  intro i hi
  have := h.order_lt ((leonardo_le_treesSize hi).trans hsize)
  omega

theorem orders_le_bits (a : Arch) : 12 * a.ptrSize - 1 ≤ 2 * a.bits := by
  cases a <;> decide

theorem Ready.code_lt_bits (h : Ready E lp R)
    (hinc : (k :: kt).Pairwise (· < ·)) (hsize : treesSize (k :: kt) ≤ E.nel) :
    orderCode (k :: kt) < 2 ^ (2 * E.arch.bits) := by
  refine lt_of_lt_of_le (h.code_lt hinc hsize) (Nat.pow_le_pow_right (by decide) ?_)
  have := orders_le_bits E.arch
  omega

theorem Heap.tail (h : Ready E lp R) {k' : ℕ} {ks : List ℕ}
    (hp : Heap E.arch p pshift k (k' :: ks)) (hsize : treesSize (k :: k' :: ks) ≤ E.nel) :
    pshift + pntz E.arch p = k' ∧
      ∃ p', shr E.arch p (pntz E.arch p) = some p' ∧ Heap E.arch p' k' k' ks := by
  obtain ⟨hinc, rfl, rfl⟩ := hp
  have hlt : pshift < k' := rel_of_pairwise_cons hinc (mem_cons_self ..)
  have hbits := h.code_lt_bits hinc hsize
  have hodd := orderCode_odd (Pairwise.of_cons hinc)
  have hntz := pntz_ofNat (orderCode_cons_cons pshift k' ks) (by omega) hodd hbits
  have hk' := h.order_lt ((leonardo_le_treesSize (by simp : k' ∈ pshift :: k' :: ks)).trans hsize)
  have horders := orders_le_bits E.arch
  rw [hntz]
  refine ⟨by omega, _, shr_ofNat (by omega) (by omega) hbits, Pairwise.of_cons hinc, ?_, rfl⟩
  -- the distance to the next bit leaves nothing of the first one
  have hone : 1 < 2 ^ (k' - pshift) := Nat.one_lt_two_pow (by omega)
  rw [orderCode_cons_cons, Nat.add_mul_div_left _ _ (Nat.two_pow_pos _), Nat.div_eq_of_lt hone,
    zero_add]

/-! ## `trinkle` -/

theorem trinkleStop_spec [IsPreorder (List UInt8) R] (h : Ready E lp R) {y : ℕ}
    (hfit : leonardo k ≤ r + 1) (hr : r < E.nel) (hy : y < E.nel) (trusty : Bool) (st : St σ)
    (hle : R (elems E st.mem x) (elems E st.mem y)) (htrusty : trusty = true → ∀ i, k = i + 2 →
      R (elems E st.mem (r - 1 - leonardo i)) (elems E st.mem x) ∧
        R (elems E st.mem (r - 1)) (elems E st.mem x)) :
    ∃ b s, E.trinkleStop lp (r * E.width) k trusty (y * E.width) st = some (b, { st with s := s }) ∧
      (b = true → ∃ i, k = i + 2 ∧ (R (elems E st.mem y) (elems E st.mem (r - 1 - leonardo i)) ∨
        R (elems E st.mem y) (elems E st.mem (r - 1)))) ∧
      (b = false → ∀ i, k = i + 2 → R (elems E st.mem (r - 1 - leonardo i)) (elems E st.mem y) ∧
        R (elems E st.mem (r - 1)) (elems E st.mem y)) := by
  unfold Env.trinkleStop
  by_cases hgo : trusty = false ∧ k > 1
  · obtain ⟨i, rfl⟩ := Nat.exists_eq_add_of_le' hgo.2
    have hpos' := leonardo_pos (i + 1)
    rw [leonardo_add_two] at hfit
    obtain ⟨b, s, heq, htrue, hfalse⟩ := geAny_spec h st (y := r - 1)
      (z := r - 1 - leonardo i) hy (by omega) (by omega)
    rw [if_pos hgo, ptrSub_width (by omega)]
    simp only [bind_eq_bind, Nat.add_sub_cancel]
    rw [h.lpAt_eq (by omega)]
    simp only [bind_some]
    rw [ptrSub_mul (by omega)]
    refine ⟨b, s, heq, fun hb => ⟨i, rfl, (htrue hb).symm⟩, fun hb j hj => ?_⟩
    obtain rfl := Nat.add_right_cancel hj
    exact (hfalse hb).symm
  · rw [if_neg hgo]
    refine ⟨false, st.s, rfl, fun hb => Bool.noConfusion hb, fun _ i hi => ?_⟩
    -- the children of a tree in order are no larger than its root, which is the element that moves
    have htrue : trusty = true := by
      cases trusty with
      | true => rfl
      | false => exact absurd ⟨rfl, by omega⟩ hgo
    obtain ⟨hl, hr⟩ := htrusty htrue i hi
    exact ⟨trans_of R hl hle, trans_of R hr hle⟩

/-- The loop of `trinkle` follows a path along the roots. -/
theorem trinkleLoop_spec [IsPreorder (List UInt8) R] (h : Ready E lp R) (hx : x < E.nel)
    (fuel : ℕ) (hfuel : kt.length < fuel)
    (hp : Heap E.arch p pshift k kt) (hsize : treesSize (k :: kt) = r + 1) (hr : r < E.nel)
    (hl : l.length + kt.length ≤ 14 * E.arch.ptrSize + 1) (trusty : Bool) (st : St σ)
    (htrusty : trusty = true → ∀ i, k = i + 2 →
      R (elems E st.mem (r - 1 - leonardo i)) (elems E st.mem x) ∧
        R (elems E st.mem (r - 1)) (elems E st.mem x)) :
    ∃ r' k' kt' path trusty' s,
      E.trinkleLoop lp (x * E.width) fuel p pshift (r * E.width) (l.map (· * E.width)) trusty st =
        some ⟨r' * E.width, k', (l ++ path).map (· * E.width), trusty', { st with s := s }⟩ ∧
      TrinklePath R (elems E st.mem) (elems E st.mem x) (k :: kt) r path (k' :: kt') r' ∧
      (trusty' = true → trusty = true ∧ path = []) := by
  induction kt generalizing fuel p pshift k r l trusty st with
  | nil =>
    obtain ⟨fuel, rfl⟩ := Nat.exists_eq_succ_of_ne_zero (Nat.ne_of_gt (Nat.zero_lt_of_lt hfuel))
    refine ⟨r, k, [], [], trusty, st.s, ?_, TrinklePath.last, fun ht => ⟨ht, rfl⟩⟩
    have hone : ¬ (p.lo ≠ 1 ∨ p.hi ≠ 0) := by
      rw [hp.p_eq, ofNat_eq_one_iff]
      exact not_not.mpr rfl
    rw [Env.trinkleLoop, if_neg hone, append_nil, hp.pshift_eq]
  | cons k1 ks ih =>
    obtain ⟨fuel, rfl⟩ := Nat.exists_eq_succ_of_ne_zero (Nat.ne_of_gt (Nat.zero_lt_of_lt hfuel))
    have hrest := treesSize_pos k1 ks
    obtain ⟨htrail, p', hshr, hp'⟩ := hp.tail h (by omega)
    have hne : p.lo ≠ 1 ∨ p.hi ≠ 0 := by
      rw [hp.p_eq, ofNat_eq_one_iff, Ne, orderCode_eq_one_iff]
      exact cons_ne_nil _ _
    have hk := hp.pshift_eq
    subst hk
    rw [treesSize_cons] at hsize
    rw [length_cons] at hl hfuel
    rw [Env.trinkleLoop, if_pos hne, h.lpAt_eq (by omega)]
    simp only [bind_eq_bind, bind_some]
    rw [ptrSub_mul (by omega)]
    simp only [bind_some]
    obtain ⟨c, s, heq, hle, hge⟩ := compare_spec h.judges h.width_pos st
      (i := r - leonardo pshift) (by omega) hx
    rw [heq]
    simp only [bind_some]
    split_ifs with hc
    · -- the next root is no larger
      exact ⟨r, pshift, k1 :: ks, [], trusty, s, by rw [append_nil], TrinklePath.root (hle hc),
        fun ht => ⟨ht, rfl⟩⟩
    · obtain ⟨b, s', hstop, htrue, hfalse⟩ := trinkleStop_spec h
        (y := r - leonardo pshift) (by omega) hr (by omega) trusty { st with s := s }
        (hge (by omega)) htrusty
      rw [hstop]
      simp only [bind_some]
      cases b with
      | true =>
        -- a child is no smaller than the next root
        obtain ⟨i, rfl, hchild⟩ := htrue rfl
        rw [if_pos rfl]
        exact ⟨r, i + 2, k1 :: ks, [], trusty, s', by rw [append_nil],
          TrinklePath.child hchild, fun ht => ⟨ht, rfl⟩⟩
      | false =>
        rw [if_neg Bool.false_ne_true, push_map (by omega)]
        rw [hshr]
        simp only [bind_some]
        rw [htrail]
        obtain ⟨r', k', kt', path, trusty', s'', hrun, hpath, ht⟩ :=
          ih fuel (by omega) hp' (r := r - leonardo pshift) (by omega) (by omega)
            (l := l ++ [r - leonardo pshift])
            (by rw [length_append, length_singleton]; omega) false { st with s := s' }
            (fun hb => Bool.noConfusion hb)
        refine ⟨r', k', kt', (r - leonardo pshift) :: path, trusty', s'', ?_,
          TrinklePath.step (hge (by omega)) (hfalse rfl) hpath, fun hb => ?_⟩
        · rw [hrun, append_assoc, singleton_append]
        · exact Bool.noConfusion (ht hb).1

theorem length_le_of_increasing {K : ℕ} {ks : List ℕ} (h : ks.Pairwise (· < ·))
    (hK : ∀ k ∈ ks, k < K) : ks.length ≤ K := by
  have hnd : ks.Nodup := h.imp fun hlt => Nat.ne_of_lt hlt
  have hsub : ks ⊆ range K := fun k hk => List.mem_range.mpr (hK k hk)
  have := (hnd.subperm hsub).length_le
  rwa [length_range] at this

/-- **`trinkle`** puts a heap in order, if its trees are but for the root of the first one. The first tree
has to be in order itself where the function trusts it to be. -/
theorem trinkle_spec [IsPreorder (List UInt8) R] (h : Ready E lp R)
    (hp : Heap E.arch p pshift k kt) (hsize : treesSize (k :: kt) = r + 1)
    (hr : r < E.nel) (fuel : ℕ) (hfuel : 12 * E.arch.ptrSize ≤ fuel) (trusty : Bool) (st : St σ)
    (hch : Children R (elems E st.mem) k r) (htree : trusty = true → Tree R (elems E st.mem) k r)
    (ht : Trees R (elems E st.mem) kt (r - leonardo k)) (hroots : Roots R (elems E st.mem) kt (r - leonardo k)) :
    ∃ st', E.trinkle lp fuel (r * E.width) p pshift trusty st = some st' ∧
      Trees R (elems E st'.mem) (k :: kt) r ∧ Roots R (elems E st'.mem) (k :: kt) r ∧
      Rearranged (r + 1) (elems E st.mem) (elems E st'.mem) := by
  have horder : ∀ i ∈ k :: kt, i < 12 * E.arch.ptrSize - 1 := by
    intro i hi
    have := h.order_lt ((leonardo_le_treesSize hi).trans (by omega))
    omega
  have hlen := length_le_of_increasing hp.increasing horder
  rw [length_cons] at hlen
  obtain ⟨r', k', kt', path, trusty', s, hrun, hpath, htr⟩ :=
    trinkleLoop_spec h hr fuel (by omega) hp hsize hr (l := [r])
      (by rw [length_singleton]; omega) trusty st
      (fun hb i hi => (htree hb).children_le i hi)
  rw [map_singleton, singleton_append] at hrun
  unfold Env.trinkle
  rw [hrun]
  simp only [bind_eq_bind, bind_some]
  cases trusty' with
  | true =>
    -- nothing has moved
    obtain ⟨hb, rfl⟩ := htr rfl
    have hfirst := htree hb
    refine ⟨_, rfl, ⟨hfirst, ht⟩, ?_, Rearranged.refl _ _⟩
    cases hpath with
    | last => trivial
    | root hle => exact ⟨hle, hroots⟩
    | child hle =>
      refine ⟨?_, hroots⟩
      exact hle.elim (fun h => trans_of R h hfirst.1) fun h => trans_of R h hfirst.2.1
  | false =>
    obtain ⟨k1, kt1, hcons, hsize', hle', hmem'⟩ := hpath.final hsize
    rw [treesSize_cons] at hsize'
    have hbounds : ∀ i ∈ r :: path, i < r + 1 := by
      intro i hi
      rcases List.mem_cons.mp hi with rfl | hi
      · omega
      · have := hpath.bounds hsize hi
        omega
    have hpathlen := hpath.length_lt
    rw [length_cons] at hpathlen
    obtain ⟨mem', hcycle, hmem⟩ := cycle_spec h.width_pos (hpath.nodup hsize)
      (fun i hi => lt_of_lt_of_le (hbounds i hi) (by omega)) (by omega) { st with s := s }
    rw [hcycle]
    simp only [bind_some]
    -- the element has come to the root of its tree, and goes down there
    obtain ⟨st', sp, hsift, hsp, hst'⟩ := sift_spec h (k := k') (r := r') (by omega) (by omega)
      { mem := mem', s := s }
    rw [hsift]
    rw [hmem, hpath.place_final hsize] at hsp hst'
    obtain ⟨hT, hRoots⟩ := hpath.inOrder hsize
      (fun k2 kt2 heq => by cases heq; exact ⟨hch, ht, hroots⟩) rfl hsp
    rw [← hst'] at hT hRoots
    refine ⟨st', rfl, hT, hRoots, ?_⟩
    have h1 : Rearranged (r + 1) (elems E st.mem)
        (place (elems E st.mem) (elems E st.mem r) (r :: path)) :=
      rearranged_place (hpath.nodup hsize) hbounds
    have h2 := rearranged_place (A := place (elems E st.mem) (elems E st.mem r) (r :: path))
      (n := r + 1) (hsp.nodup (by omega)) (fun i hi => ?_)
    · rw [hpath.place_final hsize, ← hst'] at h2
      exact h1.trans h2
    · rcases List.mem_cons.mp hi with rfl | hi
      · omega
      · have := hsp.bounds (by omega) hi
        omega

end Leblibc.Qsort

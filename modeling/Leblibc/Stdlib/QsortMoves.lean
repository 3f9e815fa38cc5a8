import Leblibc.Lib.LeonardoHeap
import Leblibc.Stdlib.QsortWords

/-!
# Moving elements in smoothsort

`cycle` moves the elements at a list of places up by one place, the first one to the last place, whatever
their width; and a comparison of two elements of the array is one of their bytes.

## Main results

* `cycleRow_spec`, `cycleLoop_spec`: the bytes that are moved, and the others
* `cycle_spec`: `cycle` on elements
* `compare_spec`: a comparison of elements
-/

namespace Leblibc.Qsort

open List

open Leblibc.Lib

variable {σ : Type} {E : Env σ} {mem : ℕ → UInt8}

/-! ## Bytes -/

/-- The pieces of `l` bytes at the places `ar` do not overlap. -/
def Apart (l : ℕ) (ar : List ℕ) : Prop := ar.Pairwise fun x y => x + l ≤ y ∨ y + l ≤ x

theorem Apart.mono {l l' : ℕ} {ar : List ℕ} (h : Apart l ar) (hl : l' ≤ l) : Apart l' ar := by
  apply h.imp
  intro x y hxy
  omega

theorem Apart.map_add {l d : ℕ} {ar : List ℕ} (h : Apart (d + l) ar) :
    Apart l (ar.map (· + d)) := by
  apply Pairwise.map _ _ h
  intro x y hxy
  omega

theorem Apart.of_ne {l x y : ℕ} {ar : List ℕ} (h : Apart l ar) (hx : x ∈ ar) (hy : y ∈ ar)
    (hne : x ≠ y) : x + l ≤ y ∨ y + l ≤ x := by
  have : Std.Symm fun x y : ℕ => x + l ≤ y ∨ y + l ≤ x := ⟨fun _ _ h => h.symm⟩
  exact Pairwise.forall h hx hy hne

theorem copyTo_of_lt {dst l o : ℕ} {src : ℕ → UInt8} (ho : o < l) :
    copyTo mem dst src l (dst + o) = src o := by
  rw [copyTo, if_pos ⟨by omega, by omega⟩, Nat.add_sub_cancel_left]

theorem copyTo_of_disjoint {dst l y : ℕ} {src : ℕ → UInt8} (h : y < dst ∨ dst + l ≤ y) :
    copyTo mem dst src l y = mem y := by
  rw [copyTo, if_neg (by omega)]

/-- The inner loop of `cycle` moves the pieces up, and leaves the other bytes. -/
theorem cycleRow_spec {l : ℕ} (tmp : ℕ → UInt8) {ar : List ℕ} (h : Apart l ar) (mem : ℕ → UInt8) :
    (∀ x ∈ ar, ∀ o < l,
      cycleRow l tmp ar mem (x + o) = place (fun x => mem (x + o)) (tmp o) ar x) ∧
    ∀ y, (∀ x ∈ ar, y < x ∨ x + l ≤ y) → cycleRow l tmp ar mem y = mem y := by
  induction ar generalizing mem with
  | nil => exact ⟨fun x hx => absurd hx not_mem_nil, fun _ _ => rfl⟩
  | cons x ar ih =>
    cases ar with
    | nil =>
      refine ⟨fun z hz o ho => ?_, fun y hy => copyTo_of_disjoint (hy x (mem_cons_self ..))⟩
      obtain rfl := List.mem_singleton.mp hz
      rw [cycleRow, copyTo_of_lt ho, place_singleton_self]
    | cons y ar =>
      have hx : ∀ z ∈ y :: ar, x + l ≤ z ∨ z + l ≤ x := fun z hz => rel_of_pairwise_cons h hz
      obtain ⟨hin, hout⟩ := ih (Pairwise.of_cons h) (copyTo mem x (fun j => mem (y + j)) l)
      refine ⟨fun z hz o ho => ?_, fun v hv => ?_⟩
      · rw [cycleRow]
        by_cases hzx : z = x
        · -- the piece is not touched again
          subst hzx
          rw [place_cons_cons_self, hout _ fun v hv => by have := hx v hv; omega, copyTo_of_lt ho]
        · have hz' := mem_of_ne_of_mem hzx hz
          rw [hin z hz' o ho, place, Function.update_of_ne hzx]
          refine place_congr (fun j hj => ?_) hz'
          have := hx j hj
          exact copyTo_of_disjoint (by omega)
      · rw [cycleRow, hout v fun z hz => hv z (mem_cons_of_mem x hz)]
        exact copyTo_of_disjoint (hv x (mem_cons_self ..))

/-- **The outer loop of `cycle`** moves the elements up, piece by piece. -/
theorem cycleLoop_spec {w x0 : ℕ} {ar : List ℕ} (h : Apart w ar) (hx0 : ar.head? = some x0)
    (mem : ℕ → UInt8) (fuel : ℕ) (hfuel : w ≤ fuel) :
    (∀ x ∈ ar, ∀ o < w, cycleLoop fuel w ar mem (x + o) =
      place (fun x => mem (x + o)) (mem (x0 + o)) ar x) ∧
    ∀ y, (∀ x ∈ ar, y < x ∨ x + w ≤ y) → cycleLoop fuel w ar mem y = mem y := by
  induction fuel generalizing w x0 ar mem with
  | zero =>
    obtain rfl : w = 0 := by omega
    exact ⟨fun x _ o ho => absurd ho (Nat.not_lt_zero o), fun _ _ => rfl⟩
  | succ fuel ih =>
    rw [cycleLoop]
    by_cases hw : w = 0
    · subst hw
      exact ⟨fun x _ o ho => absurd ho (Nat.not_lt_zero o), fun _ _ => rfl⟩
    have hhead : ar.headD 0 = x0 := by
      rw [headD_eq_head?_getD, hx0, Option.getD_some]
    rw [if_neg hw, hhead]
    generalize hl : (if 256 < w then 256 else w) = l
    have hlw : 0 < l ∧ l ≤ w := by
      split at hl <;> omega
    -- the first piece of each element, and then the others
    obtain ⟨hin, hout⟩ := cycleRow_spec (fun j => mem (x0 + j)) (h.mono hlw.2) mem
    have hsub : Apart (w - l) (ar.map (· + l)) := by
      apply Apart.map_add
      rwa [Nat.add_sub_cancel' hlw.2]
    have hsub0 : (ar.map (· + l)).head? = some (x0 + l) := by
      rw [head?_map, hx0, Option.map_some]
    obtain ⟨hin', hout'⟩ := ih hsub hsub0 (cycleRow l (fun j => mem (x0 + j)) ar mem) (by omega)
    have hkeep : ∀ o, l ≤ o → o < w → ∀ x ∈ ar,
        cycleRow l (fun j => mem (x0 + j)) ar mem (x + o) = mem (x + o) := by
      intro o ho ho' x hx
      refine hout _ fun z hz => ?_
      rcases eq_or_ne z x with rfl | hne
      · omega
      · have := h.of_ne hz hx hne
        omega
    have hadd : Function.Injective (· + l) := fun x y hxy => Nat.add_right_cancel hxy
    refine ⟨fun x hx o ho => ?_, fun y hy => ?_⟩
    · rcases Nat.lt_or_ge o l with hol | hol
      · -- the first piece is not touched again
        rw [hout' _ fun z hz => ?_, hin x hx o hol]
        obtain ⟨v, hv, rfl⟩ := List.mem_map.mp hz
        rcases eq_or_ne v x with rfl | hne
        · omega
        · have := h.of_ne hv hx hne
          omega
      · have hidx : ∀ v, v + o = v + l + (o - l) := fun v => by omega
        rw [hidx x, hin' (x + l) (mem_map_of_mem hx) (o - l) (by omega), place_map hadd,
          ← hidx x0, hkeep o hol ho x0 (mem_of_mem_head? hx0)]
        refine place_congr (fun j hj => ?_) hx
        show cycleRow _ _ _ _ (j + l + (o - l)) = _
        rw [← hidx j]
        exact hkeep o hol ho j hj
    · rw [hout' y fun z hz => ?_, hout y fun z hz => ?_]
      · have := hy z hz
        omega
      · obtain ⟨v, hv, rfl⟩ := List.mem_map.mp hz
        have := hy v hv
        omega

/-! ## Elements -/

/-- The elements of the array, by their index. -/
def elems (E : Env σ) (mem : ℕ → UInt8) (i : ℕ) : List UInt8 := E.element mem (i * E.width)

theorem length_elems (E : Env σ) (mem : ℕ → UInt8) (i : ℕ) : (elems E mem i).length = E.width := by
  rw [elems, Env.element, length_map, length_range]

theorem isElement_mul {i : ℕ} (hw : 0 < E.width) (hi : i < E.nel) : E.IsElement (i * E.width) :=
  ⟨Nat.mul_mod_left .., Nat.mul_lt_mul_of_pos_right hi hw⟩

theorem apart_map_mul {w : ℕ} {l : List ℕ} (h : l.Nodup) : Apart w (l.map (· * w)) := by
  apply Pairwise.map _ _ h
  intro i j hij
  rcases Nat.lt_or_gt_of_ne hij with hlt | hlt
  · left
    have := Nat.mul_le_mul_right w hlt
    rw [Nat.succ_mul] at this
    exact this
  · right
    have := Nat.mul_le_mul_right w hlt
    rw [Nat.succ_mul] at this
    exact this

/-- **`cycle` on elements**: they move up by one place, and the first one goes to the last place. -/
theorem cycle_spec (hw : 0 < E.width) {i0 : ℕ} {l : List ℕ} (hnd : (i0 :: l).Nodup)
    (hlt : ∀ i ∈ i0 :: l, i < E.nel) (hlen : l.length < 14 * E.arch.ptrSize) (st : St σ) :
    ∃ mem', E.cycle ((i0 :: l).map (· * E.width)) st = some { st with mem := mem' } ∧
      elems E mem' = place (elems E st.mem) (elems E st.mem i0) (i0 :: l) := by
  unfold Env.cycle
  rw [length_map, length_cons]
  by_cases hone : l.length + 1 < 2
  · -- a single element stays where it is
    obtain rfl : l = [] := eq_nil_of_length_eq_zero (by omega)
    exact ⟨st.mem, rfl, (Function.update_eq_self i0 _).symm⟩
  have hmem : ∀ x ∈ (i0 :: l).map (· * E.width), E.IsElement x := by
    intro x hx
    obtain ⟨i, hi, rfl⟩ := List.mem_map.mp hx
    exact isElement_mul hw (hlt i hi)
  rw [if_neg hone, if_pos ⟨by omega, hmem⟩]
  refine ⟨_, rfl, ?_⟩
  have hinj : Function.Injective (· * E.width) := fun i j hij => Nat.eq_of_mul_eq_mul_right hw hij
  obtain ⟨hin, hout⟩ := cycleLoop_spec (apart_map_mul hnd) rfl st.mem E.width (le_refl _)
  funext i
  by_cases hi : i ∈ i0 :: l
  · -- byte by byte
    have hget : ∀ (A : ℕ → List UInt8) (x : List UInt8) (o : ℕ),
        (place A x (i0 :: l) i).getD o 0 = place (fun j => (A j).getD o 0) (x.getD o 0) (i0 :: l) i :=
      fun A x o => place_comp (fun y : List UInt8 => y.getD o 0) (i0 :: l) i
    have hlen' : (place (elems E st.mem) (elems E st.mem i0) (i0 :: l) i).length = E.width := by
      rcases place_mem hi with h | ⟨j, -, h⟩
      · rw [h, length_elems]
      · rw [h, length_elems]
    have hbyte : ∀ (mem : ℕ → UInt8) (j o : ℕ), o < E.width →
        (elems E mem j).getD o 0 = mem (j * E.width + o) := by
      intro mem j o ho
      rw [elems, Env.element, getD_eq_getElem _ _ (by simpa using ho)]
      simp
    refine ext_getElem (by rw [hlen', length_elems]) fun o ho ho' => ?_
    have how : o < E.width := hlen' ▸ ho'
    rw [← getD_eq_getElem _ 0 ho, ← getD_eq_getElem _ 0 ho', hget, hbyte _ _ _ how,
      hin (i * E.width) (mem_map_of_mem hi) o how, place_map hinj, hbyte _ _ _ how]
    exact place_congr (fun j _ => (hbyte st.mem j o how).symm) hi
  · -- the bytes of the others are left
    rw [place_of_notMem hi]
    refine map_congr_left fun o ho => hout _ fun x hx => ?_
    obtain ⟨j, hj, rfl⟩ := List.mem_map.mp hx
    have how := List.mem_range.mp ho
    have hne : i ≠ j := fun h => hi (h ▸ hj)
    rcases Nat.lt_or_gt_of_ne hne with hlt | hlt
    · have := Nat.mul_le_mul_right E.width hlt
      rw [Nat.succ_mul] at this
      omega
    · have := Nat.mul_le_mul_right E.width hlt
      rw [Nat.succ_mul] at this
      omega

/-- The comparison function is consistent with `R`: a result that is not positive says that the first
element is before the second one, and one that is not negative the opposite. Every function is
consistent with the relation that always holds. -/
def Judges (E : Env σ) (R : List UInt8 → List UInt8 → Prop) : Prop :=
  ∀ s x y, x.length = E.width → y.length = E.width →
    ((E.cmp s x y).1 ≤ 0 → R x y) ∧ (0 ≤ (E.cmp s x y).1 → R y x)

theorem compare_spec {R : List UInt8 → List UInt8 → Prop} (hR : Judges E R) (hw : 0 < E.width)
    (st : St σ) {i j : ℕ} (hi : i < E.nel) (hj : j < E.nel) :
    ∃ c s, E.compare st (i * E.width) (j * E.width) = some (c, { st with s := s }) ∧
      (c ≤ 0 → R (elems E st.mem i) (elems E st.mem j)) ∧
      (0 ≤ c → R (elems E st.mem j) (elems E st.mem i)) := by
  unfold Env.compare
  rw [if_pos ⟨isElement_mul hw hi, isElement_mul hw hj⟩]
  exact ⟨_, _, rfl, hR _ _ _ (length_elems ..) (length_elems ..)⟩

end Leblibc.Qsort

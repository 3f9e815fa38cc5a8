import Mathlib
import Leblibc.Base.Machine

/-!
# Relative relocations in packed form

`do_relr_relocs` (`ldso/dynlink.c`) reads a stream of words. An even word is the offset of a place that is to be
relocated; an odd word is a bitmap for the places behind the last one, as many as a word has bits less the lowest. The
loop over a bitmap shifts it and stops as soon as no bit is left, whereas the running pointer moves on by the whole
width.

The places are aligned words of the mapped object, so the memory is given word by word; addresses and words are
`BitVec`, with the wrapping arithmetic of `size_t`. A bitmap in front of the first offset would use a pointer that has
no value, which is `none`.

## Main results

* `doRelrRelocs_eq_count`: each word gets the base as often as the stream encodes it
-/

namespace Leblibc.Relr

open List

/-- A word of the object, or an address. -/
abbrev Word (a : Arch) : Type := BitVec a.bits

variable {a : Arch}

/-- `*p += (size_t)base`. -/
def addBase (base : Word a) (mem : Word a → Word a) (p : Word a) : Word a → Word a :=
  Function.update mem p (mem p + base)

/-- The address of `p[i]` for a pointer to words. -/
def index (p : Word a) (i : ℕ) : Word a := p + BitVec.ofNat _ (i * a.ptrSize)

/-- `for (size_t bitmap=relr[0]; (bitmap>>=1); i++)`, with the bitmap as it is before the shift. -/
def bitmapLoop (base p bitmap : Word a) (i : ℕ) (mem : Word a → Word a) : Word a → Word a :=
  if h : bitmap >>> 1 = 0 then mem
  else
    bitmapLoop base p (bitmap >>> 1) (i + 1)
      (if (bitmap >>> 1) &&& 1 = 1 then addBase base mem (index p i) else mem)
termination_by bitmap.toNat
decreasing_by
  have hpos : (bitmap >>> 1).toNat ≠ 0 := fun h0 => h (BitVec.eq_of_toNat_eq (by simpa using h0))
  rw [BitVec.toNat_ushiftRight, Nat.shiftRight_one] at hpos ⊢
  omega

/-- The loop over the stream; `relocAddr` has no value before the first offset. -/
def relrLoop (base : Word a) : List (Word a) → Option (Word a) → (Word a → Word a) → Option (Word a → Word a)
  | [], _, mem => some mem
  | e :: relr, relocAddr, mem =>
    if e &&& 1 = 0 then
      let p := base + e
      relrLoop base relr (some (index p 1)) (addBase base mem p)
    else
      match relocAddr with
      | none => none
      | some p => relrLoop base relr (some (index p (8 * a.ptrSize - 1))) (bitmapLoop base p e 0 mem)

/-- `do_relr_relocs`; the dynamic linker has relocated itself before. -/
def doRelrRelocs (isLdso : Bool) (base : Word a) (relr : List (Word a)) (mem : Word a → Word a) :
    Option (Word a → Word a) :=
  if isLdso then some mem else relrLoop base relr none mem

/-- The places of a bitmap: bit `i + 1` stands for the word `i` words behind `next`. -/
def bitmapPlaces (next e : Word a) (n : ℕ) : List (Word a) :=
  ((List.range n).filter fun i => e.getLsbD (i + 1)).map (index next)

/-- The offsets that a stream encodes, in their order, `next` being the one a bitmap in front would start at. -/
def encoded (next : Word a) : List (Word a) → List (Word a)
  | [] => []
  | e :: relr =>
    if e.getLsbD 0 then bitmapPlaces next e (a.bits - 1) ++ encoded (index next (a.bits - 1)) relr
    else e :: encoded (index e 1) relr

/-! ## One bitmap -/

theorem index_zero (p : Word a) : index p 0 = p := by simp [index]

theorem index_add (b p : Word a) (i : ℕ) : index (b + p) i = b + index p i := BitVec.add_assoc ..

theorem index_index (p : Word a) (i j : ℕ) : index (index p i) j = index p (i + j) := by
  rw [index, index, index, BitVec.add_assoc, ← BitVec.ofNat_add, Nat.add_mul]

theorem and_one (e : Word a) : e &&& 1 = if e.getLsbD 0 then 1 else 0 := by
  rw [show (1 : Word a) = 1#a.bits from rfl, BitVec.and_one_eq_setWidth_ofBool_getLsbD]
  cases e.getLsbD 0 <;> cases a <;> decide

theorem word_one_ne_zero : (1 : Word a) ≠ 0 := by cases a <;> decide

/-- **The early end of the loop loses no bit**: a bitmap with bits below `n + 1` only is used up as if all the `n`
places were looked at. -/
theorem bitmapLoop_eq (base p : Word a) (n : ℕ) : ∀ (e : Word a) (i : ℕ) (mem : Word a → Word a),
    e.toNat < 2 ^ (n + 1) →
      bitmapLoop base p e i mem = (bitmapPlaces (index p i) e n).foldl (addBase base) mem := by
  induction n with
  | zero =>
    intro e i mem he
    have h0 : e >>> 1 = 0 := BitVec.eq_of_toNat_eq (by simp [Nat.shiftRight_one]; omega)
    rw [bitmapLoop, dif_pos h0]
    rfl
  | succ n ih =>
    intro e i mem he
    rw [bitmapLoop]
    have hbit : ∀ k, e.getLsbD (k + 1) = (e >>> 1).getLsbD k := fun k => by
      rw [BitVec.getLsbD_ushiftRight, Nat.add_comm]
    -- the first of the places, and the others as those of the shifted bitmap
    have hplaces : bitmapPlaces (index p i) e (n + 1) =
        (if (e >>> 1).getLsbD 0 then [index p i] else []) ++ bitmapPlaces (index p (i + 1)) (e >>> 1) n := by
      have hmap : index (index p i) ∘ Nat.succ = index (index p (i + 1)) := funext fun k => by
        rw [Function.comp_apply, index_index, index_index, Nat.succ_eq_add_one, Nat.add_assoc, Nat.add_comm k]
      have hfilter : (fun k => e.getLsbD (k + 1)) ∘ Nat.succ = fun k => (e >>> 1).getLsbD (k + 1) :=
        funext fun k => hbit (k + 1)
      rw [bitmapPlaces, range_succ_eq_map, filter_cons, filter_map, hfilter, hbit 0, apply_ite (map _), map_cons,
        map_map, hmap, index_zero]
      split <;> rfl
    rw [hplaces, foldl_append]
    by_cases h0 : e >>> 1 = 0
    · rw [dif_pos h0, h0]
      simp [bitmapPlaces]
    · have hlt : (e >>> 1).toNat < 2 ^ (n + 1) := by
        rw [BitVec.toNat_ushiftRight, Nat.shiftRight_one]
        omega
      rw [dif_neg h0, ih _ _ _ hlt, and_one]
      by_cases hb : (e >>> 1).getLsbD 0 = true
      · rw [if_pos hb, if_pos hb, if_pos rfl]
        rfl
      · rw [if_neg hb, if_neg hb, if_neg word_one_ne_zero.symm]
        rfl

/-! ## The stream -/

/-- Relocating a list of places one after the other adds the base to each as often as it stands in the list. -/
theorem foldl_addBase (base x : Word a) (l : List (Word a)) (mem : Word a → Word a) :
    l.foldl (addBase base) mem x = mem x + BitVec.ofNat _ (l.count x) * base := by
  induction l generalizing mem with
  | nil => simp
  | cons p l ih =>
    rw [foldl_cons, ih, addBase, count_cons]
    by_cases h : x = p
    · subst h
      simp [BitVec.ofNat_add, BitVec.add_mul, BitVec.add_assoc]
      rw [BitVec.add_comm base]
    · simp [Function.update_of_ne h, Ne.symm h]

theorem relrLoop_eq (base : Word a) (relr : List (Word a)) : ∀ (next : Word a) (mem : Word a → Word a),
    relrLoop base relr (some (base + next)) mem =
      some (((encoded next relr).map (base + ·)).foldl (addBase base) mem) := by
  have hwidth : 8 * a.ptrSize = a.bits := by cases a <;> rfl
  induction relr with
  | nil => exact fun _ _ => rfl
  | cons e relr ih =>
    intro next mem
    rw [relrLoop, encoded, and_one]
    split
    · rename_i hodd
      have hlt : e.toNat < 2 ^ (a.bits - 1 + 1) := by
        cases a <;> exact e.isLt
      have hplaces : bitmapPlaces (index (base + next) 0) e (a.bits - 1) =
          (bitmapPlaces next e (a.bits - 1)).map (base + ·) := by
        rw [index_zero, bitmapPlaces, bitmapPlaces, map_map]
        exact map_congr_left fun i _ => index_add base next i
      rw [if_neg word_one_ne_zero]
      show relrLoop base relr (some (index (base + next) _)) _ = _
      rw [hwidth, index_add, ih, bitmapLoop_eq base _ _ e 0 mem hlt, hplaces, map_append, foldl_append]
    · rw [if_pos rfl]
      show relrLoop base relr (some (index (base + e) 1)) _ = _
      rw [index_add, ih]
      rfl

/-- **Every word gets the base as often as the stream encodes it**, and no other word changes. -/
theorem doRelrRelocs_eq_count (base : Word a) (relr : List (Word a)) (mem : Word a → Word a)
    (hstart : ∀ e ∈ relr.head?, e.getLsbD 0 = false) :
    ∃ mem', doRelrRelocs false base relr mem = some mem' ∧
      ∀ x, mem' x = mem x + BitVec.ofNat _ (((encoded 0 relr).map (base + ·)).count x) * base := by
  refine ⟨_, ?_, fun x => foldl_addBase base x _ mem⟩
  cases relr with
  | nil => rfl
  | cons e relr =>
    have he := hstart e rfl
    -- the first entry sets the pointer whatever it was
    rw [← relrLoop_eq, doRelrRelocs, relrLoop, relrLoop, and_one, he]
    rfl

/-- The offset 16 and a bitmap with the bits of the two words behind it. -/
theorem doRelrRelocs_offset_and_bitmap :
    encoded (0 : Word .x86_64) [16, 7] = [16, 24, 32] ∧
      ∃ mem', doRelrRelocs false (4096 : Word .x86_64) [16, 7] (fun _ => 5) = some mem' ∧
        ∀ x, mem' x = 5 + BitVec.ofNat _ (((encoded 0 [16, 7]).map (4096 + ·)).count x) * 4096 :=
  ⟨by decide +kernel, doRelrRelocs_eq_count 4096 [16, 7] (fun _ => 5) (by rintro _ ⟨⟩; rfl)⟩

end Leblibc.Relr

import Leblibc.Ldso.Lookup

/-!
# Symbol lookup: the two kinds of hash tables

A hash table is well formed for a set of symbols if it has what the ABI says: a SysV table has in the chain of a
bucket the symbols whose hash belongs there; a GNU table has the symbols in the order of their buckets, for each one
a word with its hash, whose lowest bit marks the end of a bucket, and a Bloom filter with two bits of each hash.

Both lookups find the symbol of a name, if there is one that is visible. So a search in a list of objects does not
depend on which of its tables an object provides.

## Main results

* `sysvHash_eq`: `sysv_hash` is the hash function of the ABI
* `sysvLookup_finds`, `gnuLookup_finds`, `gnuLookupFiltered_finds`: the lookups
* `lookup_agree`: the lookups, and the searches in lists of objects, agree
-/

namespace Leblibc.Ldso

open List

/-! ## The hash function of the ABI -/

/-- A round of the hash function in the ABI, with the upper four bits moved down and cleared. -/
def elfStep (h : BitVec 32) (c : UInt8) : BitVec 32 :=
  let h := (h <<< 4) + BitVec.ofNat 32 c.toNat
  let g := h &&& 0xf0000000#32
  (h ^^^ (g >>> 24)) &&& ~~~g

/-- The hash function in the ABI. -/
def elfHash (s : List UInt8) : BitVec 32 := s.foldl elfStep 0#32

theorem shift_mask (h : BitVec 32) : (h &&& 0xfffffff#32) <<< 4 = 16#32 * h := by
  have h16 : 16#32 * h = h <<< 4 := by
    rw [BitVec.shiftLeft_eq_mul_twoPow, BitVec.mul_comm]
    rfl
  rw [h16]
  ext i hi
  interval_cases i <;> simp

theorem mask_step (h : BitVec 32) :
    (h ^^^ ((h &&& 0xf0000000#32) >>> 24)) &&& ~~~(h &&& 0xf0000000#32) =
      (h ^^^ (h >>> 24 &&& 0xf0#32)) &&& 0xfffffff#32 := by
  ext i hi
  interval_cases i <;> simp

/-- **`sysv_hash`** is the hash function of the ABI: it clears the upper bits only once. -/
theorem sysvHash_eq (s : List UInt8) : sysvHash s = elfHash s := by
  have hfold : ∀ (s : List UInt8) (h : BitVec 32),
      s.foldl sysvStep h &&& 0xfffffff#32 = s.foldl elfStep (h &&& 0xfffffff#32) := by
    intro s
    induction s with
    | nil => exact fun h => rfl
    | cons c s ih =>
      intro h
      rw [foldl_cons, foldl_cons, ih]
      congr 1
      rw [elfStep, shift_mask]
      exact (mask_step _).symm
  exact hfold s 0#32

/-- The hash function of GNU tables, as it is usually given. -/
def djbHash (s : List UInt8) : BitVec 32 := s.foldl (fun h c => h * 33#32 + BitVec.ofNat 32 c.toNat) 5381#32

theorem gnuHash_eq (s : List UInt8) : gnuHash s = djbHash s := by
  unfold gnuHash djbHash
  congr 1
  funext h c
  rw [← BitVec.add_assoc, show (33#32 : BitVec 32) = 1#32 + 32#32 from rfl, BitVec.mul_add, BitVec.mul_one]

/-! ## Well-formed tables -/

/-- The symbols that the tables are built over, `n` of them. -/
def Defined (off n i : ℕ) : Prop := off ≤ i ∧ i < off + n

/-- The list of the symbols of a chain that begins with `i`. -/
inductive Chain (next : ℕ → ℕ) : ℕ → List ℕ → Prop
  | nil : Chain next 0 []
  | cons {i : ℕ} {is : List ℕ} (h0 : i ≠ 0) (h : Chain next (next i) is) : Chain next i (i :: is)

/-- A SysV hash table: the chain of a bucket has the symbols whose hash belongs there. The chains are behind the
buckets, at a place that is a word. -/
structure WellFormedSysv (t : SymTab) (off n : ℕ) (tab : ℕ → BitVec 32) : Prop where
  nbucket_pos : 0 < (tab 0).toNat
  nbucket_lt : 2 + (tab 0).toNat < 2 ^ 32
  chain : ∀ b < (tab 0).toNat, ∃ is,
    Chain (fun i => (tab (2 + (tab 0).toNat + i)).toNat) (tab (2 + b)).toNat is ∧
      ∀ i, i ∈ is ↔ Defined off n i ∧ (elfHash (t.name i)).toNat % (tab 0).toNat = b

/-- The bucket of a symbol in a GNU hash table. -/
def gnuBucket (t : SymTab) (tab : ℕ → BitVec 32) (i : ℕ) : ℕ := (djbHash (t.name i)).toNat % (tab 0).toNat

/-- A GNU hash table: the symbols are in the order of their buckets; a bucket has the first of its symbols, and zero
if it has none; the word of a symbol has its hash, but for the lowest bit, which marks the last symbol of a bucket;
and the filter, whose size is a power of two, has two bits of the hash of each symbol. -/
structure WellFormedGnu (arch : Arch) (wide : ℕ → ℕ → ℕ) (t : SymTab) (off n : ℕ) (tab : ℕ → BitVec 32) : Prop where
  nbuckets_pos : 0 < (tab 0).toNat
  offset : (tab 1).toNat = off
  offset_pos : 0 < off
  size : off + n ≤ 2 ^ 32
  sorted : ∀ i j, off ≤ i → i ≤ j → j < off + n → gnuBucket t tab i ≤ gnuBucket t tab j
  first : ∀ b < (tab 0).toNat, ∀ i, Defined off n i → gnuBucket t tab i = b →
    (∀ j, Defined off n j → gnuBucket t tab j = b → i ≤ j) → (tab (buckets arch tab + b)).toNat = i
  empty : ∀ b < (tab 0).toNat, (∀ i, Defined off n i → gnuBucket t tab i ≠ b) → tab (buckets arch tab + b) = 0#32
  hash : ∀ i, Defined off n i →
    tab (buckets arch tab + (tab 0).toNat + (i - off)) ||| 1#32 = djbHash (t.name i) ||| 1#32
  last : ∀ i, Defined off n i → (tab (buckets arch tab + (tab 0).toNat + (i - off)) &&& 1#32 ≠ 0#32 ↔
    ∀ j, Defined off n j → gnuBucket t tab j = gnuBucket t tab i → j ≤ i)
  filter_size : ∃ k, (tab 2).toNat = 2 ^ k
  filter_low : ∀ i, Defined off n i →
    (bloomWord tab arch ((djbHash (t.name i)).toNat / arch.bits % (tab 2).toNat)).testBit
      ((djbHash (t.name i)).toNat % arch.bits) = true
  filter_high : ∀ i, Defined off n i →
    (bloomWord tab arch ((djbHash (t.name i)).toNat / arch.bits % (tab 2).toNat)).testBit
      (shr wide (djbHash (t.name i)) (tab 3) % arch.bits) = true

/-- The result of a lookup: the symbol of the name, if there is one that is visible. -/
def Finds (t : SymTab) (off n : ℕ) (s : List UInt8) : Option ℕ → Prop
  | some i => Defined off n i ∧ t.visible i = true ∧ s = t.name i
  | none => ∀ i, Defined off n i → t.visible i = true → s ≠ t.name i

theorem Finds.unique {t : SymTab} {off n : ℕ} (hdist : ∀ i j, Defined off n i → Defined off n j →
    t.name i = t.name j → i = j) {s : List UInt8} {r r' : Option ℕ} (h : Finds t off n s r)
    (h' : Finds t off n s r') : r = r' := by
  cases r with
  | none =>
    cases r' with
    | none => rfl
    | some j => exact absurd h'.2.2 (h j h'.1 h'.2.1)
  | some i =>
    cases r' with
    | none => exact absurd h.2.2 (h' i h.1 h.2.1)
    | some j => rw [hdist i j h.1 h'.1 (h.2.2.symm.trans h'.2.2)]

/-! ## SysV tables -/

section Chains

variable {next : ℕ → ℕ}

theorem Chain.unique {i : ℕ} {is is' : List ℕ} (h : Chain next i is) (h' : Chain next i is') : is = is' := by
  induction h generalizing is' with
  | nil =>
    cases h' with
    | nil => rfl
    | cons h0 _ => exact absurd rfl h0
  | cons h0 _ ih =>
    cases h' with
    | nil => exact absurd rfl h0
    | cons _ h' => exact congrArg _ (ih h')

/-- From a symbol of a chain on, the chain is a suffix of it. -/
theorem Chain.suffix {i j : ℕ} {is : List ℕ} (h : Chain next i is) (hj : j ∈ is) :
    ∃ js, Chain next j js ∧ js <:+ is := by
  induction h with
  | nil => cases hj
  | @cons i is h0 h ih =>
    rcases List.mem_cons.mp hj with rfl | hj
    · exact ⟨_, .cons h0 h, suffix_refl _⟩
    · obtain ⟨js, hjs, hsuf⟩ := ih hj
      exact ⟨js, hjs, hsuf.trans (suffix_cons _ _)⟩

theorem Chain.nodup {i : ℕ} {is : List ℕ} (h : Chain next i is) : is.Nodup := by
  induction h with
  | nil => exact nodup_nil
  | @cons i is h0 h ih =>
    refine List.nodup_cons.mpr ⟨?_, ih⟩
    intro hi
    -- otherwise the rest of the chain from `i` on would be as long as the whole chain
    obtain ⟨js, hjs, hsuf⟩ := h.suffix hi
    have hlen := hsuf.length_le
    rw [hjs.unique (.cons h0 h), length_cons] at hlen
    omega

theorem Chain.mem_lt {N i : ℕ} (hnext : ∀ j, next j < N) {is : List ℕ} (h : Chain next i is) (hi : i < N) :
    ∀ j ∈ is, 0 < j ∧ j < N := by
  induction h with
  | nil => simp
  | @cons i is h0 h ih =>
    intro j hj
    rcases List.mem_cons.mp hj with rfl | hj
    · exact ⟨Nat.pos_of_ne_zero h0, hi⟩
    · exact ih (hnext i) j hj

theorem Chain.length_lt {N i : ℕ} (hnext : ∀ j, next j < N) {is : List ℕ} (h : Chain next i is) (hi : i < N) :
    is.length < N := by
  have hsub : is ⊆ (range N).erase 0 := by
    intro j hj
    obtain ⟨hpos, hlt⟩ := h.mem_lt hnext hi j hj
    exact (mem_erase_of_ne hpos.ne').mpr (List.mem_range.mpr hlt)
  have hle := (subperm_of_subset h.nodup hsub).length_le
  rw [length_erase_of_mem (List.mem_range.mpr (by omega)), length_range] at hle
  omega

end Chains

theorem sysvLoop_eq (t : SymTab) {tab : ℕ → BitVec 32} (s : List UInt8) {i : ℕ} {is : List ℕ}
    (h : Chain (fun i => (tab ((2#32 + tab 0).toNat + i)).toNat) i is) : ∀ fuel, is.length < fuel →
      sysvLoop t tab s fuel i = some (is.find? fun i => t.visible i ∧ s = t.name i) := by
  induction h with
  | nil =>
    intro fuel hfuel
    rcases fuel with _ | fuel
    · omega
    rfl
  | @cons i is h0 h ih =>
    intro fuel hfuel
    rcases fuel with _ | fuel
    · omega
    rw [length_cons] at hfuel
    rw [sysvLoop, if_neg h0]
    by_cases hi : t.visible i = true ∧ s = t.name i
    · simp [hi]
    · rw [ih fuel (by omega)]
      simp [hi]

/-- **`sysv_lookup`** finds the symbol of a name. -/
theorem sysvLookup_finds {t : SymTab} {off n : ℕ} {tab : ℕ → BitVec 32} (hw : WellFormedSysv t off n tab)
    (s : List UInt8) : ∃ r, sysvLookup t s (sysvHash s) tab = some r ∧ Finds t off n s r := by
  have hplace : (2#32 + tab 0).toNat = 2 + (tab 0).toNat := by
    exact Nat.mod_eq_of_lt hw.nbucket_lt
  have hmod : (sysvHash s % tab 0).toNat = (elfHash s).toNat % (tab 0).toNat := by
    rw [BitVec.toNat_umod, sysvHash_eq]
  obtain ⟨is, hchain, hmem⟩ := hw.chain _ (Nat.mod_lt (elfHash s).toNat hw.nbucket_pos)
  have hlen := hchain.length_lt (fun j => BitVec.isLt _) (BitVec.isLt _)
  rw [← hmod, ← hplace] at hchain
  refine ⟨_, sysvLoop_eq t s hchain _ hlen, ?_⟩
  cases hfind : is.find? fun i => t.visible i ∧ s = t.name i with
  | some i =>
    have hi := find?_some hfind
    simp only [decide_eq_true_eq] at hi
    exact ⟨((hmem i).mp (mem_of_find?_eq_some hfind)).1, hi⟩
  | none =>
    intro i hi hvis hname
    -- a symbol of this name is in the chain of this bucket
    have hin : i ∈ is := (hmem i).mpr ⟨hi, by rw [← hname]⟩
    have := List.find?_eq_none.mp hfind i hin
    simp [hvis, hname] at this

/-! ## GNU tables -/

section Gnu

variable {arch : Arch} {wide : ℕ → ℕ → ℕ} {t : SymTab} {off n : ℕ} {tab : ℕ → BitVec 32}

/-- Behind a symbol that is not the last of its bucket, there is another one of the bucket. -/
theorem WellFormedGnu.succ (hw : WellFormedGnu arch wide t off n tab) {i : ℕ} (hi : Defined off n i)
    (hlast : ¬tab (buckets arch tab + (tab 0).toNat + (i - off)) &&& 1#32 ≠ 0#32) :
    Defined off n (i + 1) ∧ gnuBucket t tab (i + 1) = gnuBucket t tab i := by
  have hex := mt (hw.last i hi).mpr hlast
  push Not at hex
  obtain ⟨j, hj, hbucket, hlt⟩ := hex
  have hdef : Defined off n (i + 1) := ⟨hi.1.trans (Nat.le_succ i), lt_of_le_of_lt hlt hj.2⟩
  refine ⟨hdef, le_antisymm ?_ ?_⟩
  · rw [← hbucket]
    exact hw.sorted _ _ hdef.1 hlt hj.2
  · exact hw.sorted _ _ hi.1 (Nat.le_succ i) hdef.2

/-- **The loop of `gnu_lookup`** searches the symbols of a bucket from `i` on. -/
theorem gnuLoop_finds (hw : WellFormedGnu arch wide t off n tab) (s : List UInt8) : ∀ (fuel i : ℕ), Defined off n i →
    off + n - i ≤ fuel → ∃ r, gnuLoop t tab s (gnuHash s ||| 1#32) fuel i
        (buckets arch tab + (tab 0).toNat + (i - off)) = some r ∧
      (∀ j, r = some j → Defined off n j ∧ t.visible j = true ∧ s = t.name j) ∧
      (r = none → ∀ j, Defined off n j → i ≤ j → gnuBucket t tab j = gnuBucket t tab i → t.visible j = true →
        s ≠ t.name j) := by
  intro fuel
  induction fuel with
  | zero =>
    intro i hi hfuel
    have := hi.2
    omega
  | succ fuel ih =>
    intro i hi hfuel
    rw [gnuLoop]
    by_cases hname : t.visible i = true ∧ s = t.name i
    · -- the hash of a symbol of this name is the hash of the name
      have hhash : gnuHash s ||| 1#32 = tab (buckets arch tab + (tab 0).toNat + (i - off)) ||| 1#32 := by
        rw [hw.hash i hi, gnuHash_eq, hname.2]
      rw [if_pos ⟨hhash, hname⟩]
      refine ⟨some i, rfl, ?_, fun h => by cases h⟩
      rintro j ⟨⟩
      exact ⟨hi, hname⟩
    · rw [if_neg (fun h => hname h.2)]
      split_ifs with hlast
      · refine ⟨none, rfl, fun j h => (by cases h), fun _ j hj hle hbucket hvis heq => ?_⟩
        obtain rfl := le_antisymm hle ((hw.last i hi).mp hlast j hj hbucket)
        exact hname ⟨hvis, heq⟩
      · obtain ⟨hdef, hbucket⟩ := hw.succ hi hlast
        have hmod : (i + 1) % 2 ^ 32 = i + 1 := Nat.mod_eq_of_lt (lt_of_lt_of_le hdef.2 hw.size)
        have hplace : buckets arch tab + (tab 0).toNat + (i - off) + 1 =
            buckets arch tab + (tab 0).toNat + (i + 1 - off) := by
          have := hi.1
          omega
        rw [hmod, hplace]
        obtain ⟨r, hr, hsome, hnone⟩ := ih (i + 1) hdef (by omega)
        refine ⟨r, hr, hsome, fun h j hj hle hb hvis heq => ?_⟩
        rcases Nat.eq_or_lt_of_le hle with rfl | hlt
        · exact hname ⟨hvis, heq⟩
        · exact hnone h j hj hlt (hb.trans hbucket.symm) hvis heq

/-- **`gnu_lookup`** finds the symbol of a name. -/
theorem gnuLookup_finds (hw : WellFormedGnu arch wide t off n tab) (s : List UInt8) :
    ∃ r, gnuLookup arch (gnuHash s) tab t s = some r ∧ Finds t off n s r := by
  have hb : (gnuHash s % tab 0).toNat = (djbHash s).toNat % (tab 0).toNat := by
    rw [BitVec.toNat_umod, gnuHash_eq]
  have hlt := Nat.mod_lt (djbHash s).toNat hw.nbuckets_pos
  have hbucket (i : ℕ) (h : s = t.name i) : gnuBucket t tab i = (djbHash s).toNat % (tab 0).toNat := by
    rw [gnuBucket, ← h]
  unfold gnuLookup
  simp only [hb]
  by_cases hempty : ∀ i, Defined off n i → gnuBucket t tab i ≠ (djbHash s).toNat % (tab 0).toNat
  · rw [if_pos (hw.empty _ hlt hempty)]
    exact ⟨none, rfl, fun i hi _ heq => hempty i hi (hbucket i heq)⟩
  · push Not at hempty
    -- the bucket has the first of its symbols
    classical
    obtain ⟨hdef, hin⟩ := Nat.find_spec hempty
    have hmin : ∀ j, Defined off n j → gnuBucket t tab j = (djbHash s).toNat % (tab 0).toNat → Nat.find hempty ≤ j :=
      fun j hj hjb => Nat.find_min' hempty ⟨hj, hjb⟩
    have hfirst := hw.first _ hlt _ hdef hin hmin
    generalize Nat.find hempty = i at hdef hin hmin hfirst
    have hne : ¬tab (buckets arch tab + (djbHash s).toNat % (tab 0).toNat) = 0#32 := by
      intro hc
      rw [hc] at hfirst
      have := hw.offset_pos
      have := hdef.1
      simp at hfirst
      omega
    have hsub : (tab (buckets arch tab + (djbHash s).toNat % (tab 0).toNat) - tab 1).toNat = i - off := by
      rw [BitVec.toNat_sub_of_le, hfirst, hw.offset]
      rw [BitVec.le_def, hfirst, hw.offset]
      exact hdef.1
    rw [if_neg hne, hsub, hfirst]
    have hfuel : off + n - i ≤ chainMax := (Nat.sub_le _ _).trans hw.size
    obtain ⟨r, hr, hsome, hnone⟩ := gnuLoop_finds hw s chainMax i hdef hfuel
    refine ⟨r, hr, ?_⟩
    cases r with
    | some j => exact hsome j rfl
    | none =>
      intro j hj hvis heq
      exact hnone rfl j hj (hmin j hj (hbucket j heq)) ((hbucket j heq).trans hin.symm) hvis heq

theorem filter_index (hw : WellFormedGnu arch wide t off n tab) (s : List UInt8) :
    (gnuHash s / BitVec.ofNat 32 arch.bits &&& (tab 2 - 1#32)).toNat =
      (djbHash s).toNat / arch.bits % (tab 2).toNat := by
  obtain ⟨k, hk⟩ := hw.filter_size
  have hbits : (BitVec.ofNat 32 arch.bits).toNat = arch.bits := by cases arch <;> rfl
  have hsub : (tab 2 - 1#32).toNat = 2 ^ k - 1 := by
    rw [BitVec.toNat_sub_of_le, hk]
    · rfl
    · rw [BitVec.le_def, hk]
      exact Nat.one_le_two_pow
  rw [BitVec.toNat_and, hsub, Nat.and_two_pow_sub_one_eq_mod, BitVec.toNat_udiv, hbits, gnuHash_eq, hk]

/-- **`gnu_lookup_filtered`** finds the symbol of a name: the filter rejects no name that is there. -/
theorem gnuLookupFiltered_finds (hw : WellFormedGnu arch wide t off n tab) (s : List UInt8) :
    ∃ r, gnuLookupFiltered arch wide (gnuHash s) tab t s (gnuHash s / BitVec.ofNat 32 arch.bits)
      (2 ^ ((gnuHash s).toNat % arch.bits)) = some r ∧ Finds t off n s r := by
  unfold gnuLookupFiltered
  simp only [filter_index hw s]
  by_cases hlow : (bloomWord tab arch ((djbHash s).toNat / arch.bits % (tab 2).toNat)) &&&
      2 ^ ((gnuHash s).toNat % arch.bits) = 0
  · rw [if_pos hlow]
    refine ⟨none, rfl, fun i hi _ heq => ?_⟩
    have hbit := hw.filter_low i hi
    rw [← heq] at hbit
    rw [gnuHash_eq, Nat.and_two_pow, hbit] at hlow
    simp at hlow
  · rw [if_neg hlow]
    split_ifs with hhigh
    · refine ⟨none, rfl, fun i hi _ heq => ?_⟩
      have hbit := hw.filter_high i hi
      rw [← heq, ← gnuHash_eq, Nat.testBit, Nat.and_comm] at hbit
      rw [gnuHash_eq] at hbit hhigh
      simp [hhigh] at hbit
    · exact gnuLookup_finds hw s

end Gnu

/-! ## Lists of objects -/

/-- An object whose symbols have distinct names, with well-formed tables of both kinds for them. -/
structure Library (arch : Arch) (wide : ℕ → ℕ → ℕ) where
  syms : SymTab
  off : ℕ
  n : ℕ
  sysv : ℕ → BitVec 32
  gnu : ℕ → BitVec 32
  distinct : ∀ i j, Defined off n i → Defined off n j → syms.name i = syms.name j → i = j
  wellFormedSysv : WellFormedSysv syms off n sysv
  wellFormedGnu : WellFormedGnu arch wide syms off n gnu

namespace Library

variable {arch : Arch} {wide : ℕ → ℕ → ℕ}

/-- The object with its SysV table, and if `g` says so with its GNU table. -/
def dso (l : Library arch wide) (g : Bool) : Dso := ⟨l.syms, l.sysv, if g then some l.gnu else none⟩

theorem lookups (l : Library arch wide) (s : List UInt8) : ∃ r, Finds l.syms l.off l.n s r ∧
    sysvLookup l.syms s (sysvHash s) l.sysv = some r ∧ gnuLookup arch (gnuHash s) l.gnu l.syms s = some r ∧
    gnuLookupFiltered arch wide (gnuHash s) l.gnu l.syms s (gnuHash s / BitVec.ofNat 32 arch.bits)
      (2 ^ ((gnuHash s).toNat % arch.bits)) = some r := by
  obtain ⟨r, hr, hfind⟩ := sysvLookup_finds l.wellFormedSysv s
  obtain ⟨r1, hr1, hfind1⟩ := gnuLookup_finds l.wellFormedGnu s
  obtain ⟨r2, hr2, hfind2⟩ := gnuLookupFiltered_finds l.wellFormedGnu s
  obtain rfl := hfind.unique l.distinct hfind1
  obtain rfl := hfind.unique l.distinct hfind2
  exact ⟨r, hfind, hr, hr1, hr2⟩

/-- The result of the lookup of a name. -/
def lookup (l : Library arch wide) (s : List UInt8) : Option ℕ := (sysvLookup l.syms s (sysvHash s) l.sysv).join

/-- A search in a list of objects, by the results of the lookups. -/
def search (s : List UInt8) (needDef : Bool) : List (Library arch wide) → ℕ → Option (ℕ × ℕ)
  | [], _ => none
  | l :: ls, k =>
    match (l.lookup s).filter (acceptable l.syms needDef) with
    | some i => some (k, i)
    | none => search s needDef ls (k + 1)

/-- **`find_sym2`** does this search, whichever table each object provides. The SysV hash is computed when it is first
needed. -/
theorem findLoop_eq (s : List UInt8) (needDef : Bool) : ∀ (ls : List (Library arch wide × Bool)) (k : ℕ)
    (h : BitVec 32), h = 0#32 ∨ h = sysvHash s →
      findLoop arch wide s needDef (ls.map fun x => x.1.dso x.2) k h = some (search s needDef (ls.map Prod.fst) k) := by
  intro ls
  induction ls with
  | nil => exact fun _ _ _ => rfl
  | cons x ls ih =>
    intro k h hh
    obtain ⟨r, -, hsysv, -, hgnu⟩ := x.1.lookups s
    have hlookup : x.1.lookup s = r := by
      rw [lookup, hsysv]
      rfl
    have hknown : sysvKnown (x.1.dso x.2) s h = 0#32 ∨ sysvKnown (x.1.dso x.2) s h = sysvHash s := by
      unfold sysvKnown
      split
      · exact .inr rfl
      · exact hh
    have hin : lookupIn arch wide (x.1.dso x.2) s (sysvKnown (x.1.dso x.2) s h) = some r := by
      cases hx : x.2 with
      | true => exact hgnu
      | false =>
        have hcomp : sysvKnown (x.1.dso false) s h = sysvHash s := by
          rw [sysvKnown, show (x.1.dso false).ghashtab.isNone = true from rfl]
          rcases hh with rfl | rfl <;> simp
        rw [hcomp]
        exact hsysv
    have hsyms : (x.1.dso x.2).syms = x.1.syms := rfl
    rw [map_cons, map_cons, findLoop, hin, search, hlookup]
    simp only [hsyms]
    cases r.filter (acceptable x.1.syms needDef) with
    | some i => rfl
    | none => exact ih (k + 1) _ hknown

end Library

/-- **The two kinds of tables agree**: for an object with well-formed tables of both kinds over the same symbols, the
SysV lookup, the GNU lookup and the filtered one have the same result, which is the symbol of the name if there is
one; and a search in a list of objects has the same result whichever tables the objects provide. -/
theorem lookup_agree (arch : Arch) (wide : ℕ → ℕ → ℕ) :
    (∀ (l : Library arch wide) (s : List UInt8), ∃ r, Finds l.syms l.off l.n s r ∧
      sysvLookup l.syms s (sysvHash s) l.sysv = some r ∧ gnuLookup arch (gnuHash s) l.gnu l.syms s = some r ∧
      gnuLookupFiltered arch wide (gnuHash s) l.gnu l.syms s (gnuHash s / BitVec.ofNat 32 arch.bits)
        (2 ^ ((gnuHash s).toNat % arch.bits)) = some r) ∧
    ∀ (ls : List (Library arch wide × Bool × Bool)) (s : List UInt8) (needDef : Bool), ∃ r,
      findSym2 arch wide (ls.map fun x => x.1.dso x.2.1) s needDef = some r ∧
        findSym2 arch wide (ls.map fun x => x.1.dso x.2.2) s needDef = some r := by
  refine ⟨fun l s => l.lookups s, fun ls s needDef => ⟨Library.search s needDef (ls.map Prod.fst) 0, ?_, ?_⟩⟩
  · have h := Library.findLoop_eq s needDef (ls.map fun x => (x.1, x.2.1)) 0 0#32 (.inl rfl)
    rwa [map_map, map_map] at h
  · have h := Library.findLoop_eq s needDef (ls.map fun x => (x.1, x.2.2)) 0 0#32 (.inl rfl)
    rwa [map_map, map_map] at h

/-- The tables of an object with one symbol, `a`, and a filter of one word. -/
def oneSymbol : Library .x86_64 (fun _ _ => 0) where
  syms := ⟨fun _ => [97], fun _ => 1, fun _ => 1, fun _ => 16, none⟩
  off := 1
  n := 1
  sysv i := ([1, 2, 1, 0, 0] : List (BitVec 32)).getD i 0
  gnu i := ([1, 1, 1, 0, 0xffffffff, 0xffffffff, 1, 0x2b607] : List (BitVec 32)).getD i 0
  distinct i j hi hj _ := by
    unfold Defined at hi hj
    omega
  wellFormedSysv := by
    refine ⟨by decide, by decide, fun b hb => ⟨[1], ?_, ?_⟩⟩
    · obtain rfl : b = 0 := Nat.lt_one_iff.mp hb
      exact .cons (by decide) .nil
    · intro i
      obtain rfl : b = 0 := Nat.lt_one_iff.mp hb
      rw [List.mem_singleton]
      constructor
      · rintro rfl
        exact ⟨⟨le_rfl, by decide⟩, Nat.mod_one _⟩
      · rintro ⟨⟨h₁, h₂⟩, -⟩
        omega
  wellFormedGnu := by
    have hdef (i : ℕ) (hi : Defined 1 1 i) : i = 1 := by
      obtain ⟨h₁, h₂⟩ := hi
      omega
    have hone : Defined 1 1 1 := ⟨le_rfl, by decide⟩
    have hword (k : ℕ) (hk : k < 64) : (0xffffffffffffffff : ℕ).testBit k = true := by
      rw [show (0xffffffffffffffff : ℕ) = 2 ^ 64 - 1 from rfl, Nat.testBit_two_pow_sub_one]
      exact decide_eq_true hk
    exact {
      nbuckets_pos := by decide
      offset := by decide
      offset_pos := by decide
      size := by decide
      sorted := fun i j _ _ _ => by simp [gnuBucket]
      first := fun b hb i hi _ _ => by
        obtain rfl := hdef i hi
        obtain rfl : b = 0 := Nat.lt_one_iff.mp hb
        rfl
      empty := fun b hb h => by
        obtain rfl : b = 0 := Nat.lt_one_iff.mp hb
        exact absurd (Nat.mod_one _) (h 1 hone)
      hash := fun i hi => by
        obtain rfl := hdef i hi
        decide
      last := fun i hi => by
        obtain rfl := hdef i hi
        exact ⟨fun _ j hj _ => (hdef j hj).le, fun _ => by decide⟩
      filter_size := ⟨0, by decide⟩
      filter_low := fun i hi => by
        obtain rfl := hdef i hi
        exact hword _ (Nat.mod_lt _ (by decide))
      filter_high := fun i hi => by
        obtain rfl := hdef i hi
        exact hword _ (Nat.mod_lt _ (by decide)) }

/-- The search for `a` in two such objects, of which the first has both tables. -/
theorem lookup_agree_one :
    ∃ r, findSym2 .x86_64 (fun _ _ => 0) [oneSymbol.dso true, oneSymbol.dso false] [97] true = some r ∧
    findSym2 .x86_64 (fun _ _ => 0) [oneSymbol.dso false, oneSymbol.dso false] [97] true = some r :=
  (lookup_agree .x86_64 fun _ _ => 0).2 [(oneSymbol, true, false), (oneSymbol, false, false)] [97] true

end Leblibc.Ldso

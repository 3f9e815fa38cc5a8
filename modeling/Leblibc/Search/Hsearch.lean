import Leblibc.Base.Machine
import Leblibc.Lib.OpenAddressing
import Leblibc.Lib.Triangular

/-!
# Hash search tables (`src/search/hsearch.c`)

The table is an array of `mask + 1` entries, a power of two, with open addressing: the probe loop
moves on by `1, 2, 3, …` slots. Entering an entry that makes the table more than three quarters full
rehashes it into a table of twice the size; when that allocation fails the new entry is taken out
again.

Every loop of the source takes a fuel argument here, and `none` is a loop that has not ended.

## Main results

* `probe_spec`: the probe loop ends at the first slot of the path where it may stop
* `resize_spec`, `hcreateR_spec`: what rehashing and creation do
* `hsearchR_spec`: what one call does to the stored map
-/

namespace Leblibc.Hsearch

open Lib List

/-- `ENTRY`; the null key marks a free slot. -/
structure Entry (α : Type) where
  key : Option CStr
  data : α
  deriving DecidableEq

/-- The argument of a call: an `ENTRY` whose key is a string. -/
structure Item (α : Type) where
  key : CStr
  data : α
  deriving DecidableEq

/-- The item as the `ENTRY` that is copied into the table. -/
def Item.toEntry {α : Type} (item : Item α) : Entry α := ⟨some item.key, item.data⟩

/-- `ACTION`. -/
inductive Action where
  | find
  | enter
  deriving DecidableEq

/-- `struct __tab`. The empty list stands for the null pointer: an allocated table has at least
`MINSIZE` entries. -/
structure Tab (α : Type) where
  entries : List (Entry α)
  mask : ℕ
  used : ℕ
  deriving DecidableEq

/-- `MINSIZE`. -/
def minSize : ℕ := 8

/-- `MAXSIZE`, that is `(size_t)-1/2 + 1`. -/
def maxSize (a : Arch) : ℕ := a.sizeMax / 2 + 1

/-- `sizeof(ENTRY)`: two pointers. -/
def entrySize (a : Arch) : ℕ := 2 * a.ptrSize

variable {α : Type} [Inhabited α]

/-- An entry of a table fresh from `calloc`. -/
def Entry.null : Entry α := ⟨none, default⟩

/-- The entry at an offset of the table. -/
def slotAt (entries : List (Entry α)) (i : ℕ) : Entry α := entries.getD i Entry.null

/-- The key at an offset of the table. -/
def keyAt (entries : List (Entry α)) (i : ℕ) : Option CStr := (slotAt entries i).key

/-- `keyhash`. -/
def keyhash (a : Arch) (k : CStr) : ℕ :=
  k.bytes.foldl (fun h c => a.wrap (31 * h + c.toNat)) 0

/-- The loop `for (newsize = MINSIZE; newsize < nel; newsize *= 2)`. -/
def growSize (a : Arch) (nel : ℕ) : ℕ → ℕ → Option ℕ
  | 0, _ => none
  | fuel + 1, newsize =>
    if newsize < nel then growSize a nel fuel (a.wrap (newsize * 2)) else some newsize

/-- The loop `for (i = hash, j = 1; ; i += j++)`, which leaves at the first slot that meets
`stop`. -/
def probe (a : Arch) (mask : ℕ) (stop : ℕ → Bool) : ℕ → ℕ → ℕ → Option ℕ
  | 0, _, _ => none
  | fuel + 1, i, j =>
    let e := i &&& mask
    if stop e then some e else probe a mask stop fuel (a.wrap (i + j)) (a.wrap (j + 1))

/-- The loop of `resize` over the old table: every entry goes to the first free slot of its path in
the new one. -/
def rehash (a : Arch) (fuel mask : ℕ) : List (Entry α) → List (Entry α) → Option (List (Entry α))
  | [], new => some new
  | e :: old, new =>
    match e.key with
    | none => rehash a fuel mask old new
    | some key =>
      (probe a mask (fun s => (keyAt new s).isNone) fuel (keyhash a key) 1).bind fun s =>
        rehash a fuel mask old (new.set s e)

/-- `resize`, with the outcome `ok` of its allocation. -/
def resize (a : Arch) (fuel nel : ℕ) (ok : Bool) (htab : Tab α) : Option (Bool × Tab α) :=
  let nel := if nel > maxSize a then maxSize a else nel
  (growSize a nel fuel minSize).bind fun newsize =>
    if calloc a newsize (entrySize a) ok then
      let new := List.replicate newsize Entry.null
      if htab.entries = [] then
        some (true, { htab with entries := new, mask := newsize - 1 })
      else
        (rehash a fuel (newsize - 1) htab.entries new).map fun new =>
          (true, { htab with entries := new, mask := newsize - 1 })
    else some (false, htab)

/-- `lookup`. -/
def lookup (a : Arch) (fuel : ℕ) (key : CStr) (hash : ℕ) (htab : Tab α) : Option ℕ :=
  probe a htab.mask (fun e => keyAt htab.entries e = none || keyAt htab.entries e = some key)
    fuel hash 1

/-- `__hcreate_r`, with the outcomes of its two allocations; the inner `none` is the return
value `0`. -/
def hcreateR (a : Arch) (fuel nel : ℕ) (okTab okEntries : Bool) : Option (Option (Tab α)) :=
  if okTab then
    (resize a fuel nel okEntries ⟨[], 0, 0⟩).map fun r => if r.1 then some r.2 else none
  else some none

/-- What a call hands back: its return value and the entry pointer it stores through `retval`. -/
structure Reply where
  ret : ℕ
  retval : Option ℕ
  deriving DecidableEq

/-- `__hsearch_r`, with the outcome `ok` of the allocation it may make. -/
def hsearchR (a : Arch) (fuel : ℕ) (item : Item α) (action : Action) (ok : Bool) (htab : Tab α) :
    Option (Reply × Tab α) :=
  let hash := keyhash a item.key
  (lookup a fuel item.key hash htab).bind fun e =>
    if (keyAt htab.entries e).isSome then some (⟨1, some e⟩, htab)
    else if action = .find then some (⟨0, none⟩, htab)
    else
      let htab : Tab α :=
        { htab with entries := htab.entries.set e item.toEntry, used := a.wrap (htab.used + 1) }
      if htab.used > htab.mask - htab.mask / 4 then
        (resize a fuel (a.wrap (2 * htab.used)) ok htab).bind fun r =>
          if r.1 then
            (lookup a fuel item.key hash r.2).map fun e => (⟨1, some e⟩, r.2)
          else
            some (⟨0, none⟩,
              { r.2 with
                entries := r.2.entries.set e { slotAt r.2.entries e with key := none }
                used := r.2.used - 1 })
      else some (⟨1, some e⟩, htab)

/-! ## Loops -/

theorem bits_pos (a : Arch) : 0 < a.bits := by cases a <;> decide

theorem maxSize_eq (a : Arch) : maxSize a = 2 ^ (a.bits - 1) := by cases a <;> rfl

theorem keyhash_lt (a : Arch) (k : CStr) : keyhash a k < 2 ^ a.bits := by
  unfold keyhash
  rcases eq_nil_or_concat k.bytes with h | ⟨l, c, h⟩
  · rw [h]
    exact Nat.two_pow_pos _
  · rw [h, concat_eq_append, foldl_concat]
    exact a.wrap_lt _

variable {a : Arch} {k s : ℕ} {entries : List (Entry α)} {e : ℕ}

/-- The doubling loop ends at the first power of two from `2 ^ i` on that is not below `nel`. -/
theorem growSize_spec {nel : ℕ} (hnel : nel ≤ 2 ^ (a.bits - 1)) {i : ℕ} (fuel : ℕ)
    (hi : i < a.bits) (hfuel : a.bits ≤ fuel + i) :
    ∃ k, i ≤ k ∧ k < a.bits ∧ nel ≤ 2 ^ k ∧ (k = i ∨ 2 ^ (k - 1) < nel) ∧
      growSize a nel fuel (2 ^ i) = some (2 ^ k) := by
  induction fuel generalizing i with
  | zero => omega
  | succ fuel ih =>
    unfold growSize
    by_cases hlt : 2 ^ i < nel
    · have hi' : i + 1 < a.bits := by
        by_contra hge
        have : a.bits - 1 ≤ i := by omega
        have := Nat.pow_le_pow_right (n := 2) (by omega) this
        omega
      have hwrap : a.wrap (2 ^ i * 2) = 2 ^ (i + 1) := by
        rw [← pow_succ]
        exact Arch.wrap_of_lt (Nat.pow_lt_pow_right (by omega) hi')
      obtain ⟨k, hik, hk, hle, hor, heq⟩ := ih hi' (by omega)
      refine ⟨k, by omega, hk, hle, Or.inr ?_, by rw [if_pos hlt, hwrap, heq]⟩
      rcases hor with rfl | h
      · simpa using hlt
      · exact h
    · exact ⟨i, le_rfl, hi, by omega, Or.inl rfl, if_neg hlt⟩

theorem wrap_land_mask (hk : k ≤ a.bits) (h n : ℕ) :
    a.wrap (h + triangle n) &&& (2 ^ k - 1) = probeSlot k h n := by
  rw [Nat.and_two_pow_sub_one_eq_mod, Arch.wrap, Nat.mod_mod_of_dvd _ (Nat.pow_dvd_pow 2 hk)]
  rfl

/-- Standing after `n` moves, the loop ends at the next slot that meets `stop`. -/
theorem probe_from (hk : k ≤ a.bits) {stop : ℕ → Bool} {h N : ℕ} (hN : stop (probeSlot k h N) = true) (d : ℕ) :
    ∀ n fuel, N = n + d → d < fuel → (∀ m, n ≤ m → m < N → stop (probeSlot k h m) = false) →
      probe a (2 ^ k - 1) stop fuel (a.wrap (h + triangle n)) (a.wrap (n + 1)) =
        some (probeSlot k h N) := by
  induction d with
  | zero =>
    rintro n (_ | fuel) hn hfuel -
    · omega
    · obtain rfl : N = n := by omega
      simp [probe, wrap_land_mask hk, hN]
  | succ d ih =>
    rintro n (_ | fuel) hn hfuel hpass
    · omega
    · have hi : a.wrap (a.wrap (h + triangle n) + a.wrap (n + 1)) =
          a.wrap (h + triangle (n + 1)) := by
        rw [triangle_succ, ← Nat.add_assoc]
        exact (Nat.add_mod _ _ _).symm
      have hj : a.wrap (a.wrap (n + 1) + 1) = a.wrap (n + 1 + 1) := by
        simp [Arch.wrap]
      simp only [probe, wrap_land_mask hk, hpass n le_rfl (by omega), hi, hj]
      exact ih (n + 1) fuel (by omega) (by omega) fun m h1 h2 => hpass m (by omega) h2

/-- **The probe loop ends at the first slot of the path where it may stop**, provided there is such a
slot in the table. -/
theorem probe_spec {fuel : ℕ} (hk : k ≤ a.bits) (hfuel : 2 ^ k ≤ fuel)
    (stop : ℕ → Bool) (hs : s < 2 ^ k) (hstop : stop s = true) {h : ℕ} (hh : h < 2 ^ a.bits) :
    ∃ n, probe a (2 ^ k - 1) stop fuel h 1 = some (probeSlot k h n) ∧
      stop (probeSlot k h n) = true ∧ ∀ m < n, stop (probeSlot k h m) = false := by
  obtain ⟨n0, hn0, rfl⟩ := exists_probeSlot_eq k h hs
  have hex : ∃ n, stop (probeSlot k h n) = true := ⟨n0, hstop⟩
  have hfirst : ∀ m < Nat.find hex, stop (probeSlot k h m) = false := by
    intro m hm
    simpa using Nat.find_min hex hm
  have hle : Nat.find hex ≤ n0 := Nat.find_le hstop
  refine ⟨Nat.find hex, ?_, Nat.find_spec hex, hfirst⟩
  have hbits : 1 < 2 ^ a.bits := Nat.one_lt_two_pow (bits_pos a).ne'
  have := probe_from hk (Nat.find_spec hex) (Nat.find hex) 0 fuel (by omega) (by omega)
    fun m _ hm => hfirst m hm
  rwa [triangle_zero, Nat.add_zero, Arch.wrap_of_lt hh, Arch.wrap_of_lt hbits] at this

/-! ## Slots -/

theorem keyAt_set (he : e < entries.length) (x : Entry α) :
    keyAt (entries.set e x) = Function.update (keyAt entries) e x.key := by
  funext s
  by_cases hs : s = e
  · subst hs
    simp [keyAt, slotAt, he]
  · rw [Function.update_of_ne hs]
    simp [keyAt, slotAt, getElem?_set_ne (Ne.symm hs)]

theorem keyAt_of_length_le (hs : entries.length ≤ s) :
    keyAt entries s = none := by
  simp [keyAt, slotAt, getElem?_eq_none hs, Entry.null]

theorem lt_length_of_keyAt {key : CStr} (h : keyAt entries s = some key) : s < entries.length := by
  by_contra hge
  rw [keyAt_of_length_le (by omega)] at h
  cases h

theorem slotAt_mem (hs : s < entries.length) :
    slotAt entries s ∈ entries := by
  simp [slotAt, getElem?_eq_getElem hs]

theorem exists_slotAt_eq {x : Entry α} (hx : x ∈ entries) :
    ∃ s < entries.length, slotAt entries s = x := by
  obtain ⟨s, hs, rfl⟩ := List.mem_iff_getElem.mp hx
  exact ⟨s, hs, by simp [slotAt, getElem?_eq_getElem hs]⟩

theorem keyAt_replicate_null (n : ℕ) : keyAt (List.replicate n (Entry.null (α := α))) = fun _ => none := by
  funext s
  simp only [keyAt, slotAt, getD, getElem?_replicate]
  split <;> rfl

/-- The number of slots in use. -/
def countUsed (entries : List (Entry α)) : ℕ := entries.countP fun e => e.key.isSome

theorem countUsed_set (he : e < entries.length) (hfree : keyAt entries e = none) (item : Item α) :
    countUsed (entries.set e item.toEntry) = countUsed entries + 1 := by
  have hget : (entries[e]).key = none := by
    simpa [keyAt, slotAt, getElem?_eq_getElem he] using hfree
  simp [countUsed, countP_set he, hget, Item.toEntry]

/-- A table with fewer keys than slots has a free slot. -/
theorem exists_free (entries : List (Entry α)) (h : countUsed entries < entries.length) :
    ∃ s < entries.length, keyAt entries s = none := by
  by_contra hno
  push Not at hno
  have hall : countUsed entries = entries.length := by
    refine List.countP_eq_length.mpr fun x hx => ?_
    obtain ⟨s, hs, rfl⟩ := exists_slotAt_eq hx
    exact Option.isSome_iff_ne_none.mpr (hno s hs)
  omega

/-- Storing an entry in a free slot adds it to the stored entries and removes none. -/
theorem mem_set_of_free (he : e < entries.length) (hfree : keyAt entries e = none) (x y : Entry α) (hy : y.key.isSome) :
    y ∈ entries.set e x ↔ y = x ∨ y ∈ entries := by
  constructor
  · intro h
    exact (mem_or_eq_of_mem_set h).symm
  · rintro (rfl | h)
    · exact mem_set he _
    · obtain ⟨s, hs, rfl⟩ := exists_slotAt_eq h
      have hne : s ≠ e := by
        rintro rfl
        rw [← keyAt, hfree] at hy
        cases hy
      refine List.mem_iff_getElem.mpr ⟨s, by simpa using hs, ?_⟩
      simp [getElem_set_ne (Ne.symm hne), slotAt, getElem?_eq_getElem hs]

end Leblibc.Hsearch

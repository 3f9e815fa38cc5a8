import Leblibc.Search.Hsearch

/-!
# A hash search table is a finite map

Between two calls a table has a power of two of slots, at most three quarters of them in use, and
every key stands on its probe path behind slots taken by other keys. One call keeps this and changes
the stored map as its reply says; a run of calls is then followed by its trace alone: a key is found
with the entry of its first successful `ENTER`.

## Main results

* `rehash_spec`, `resize_spec`: rehashing keeps the stored entries
* `lookup_spec`: the loop of `lookup` ends, and decides whether the key is stored
* `hsearchR_spec`: what one call does
* `session_spec`: every session ends and refines a finite map
-/

namespace Leblibc.Hsearch

open Lib List Option

variable {α : Type} [Inhabited α] {a : Arch}

/-- The probe path of a key in a table of `2 ^ k` slots. -/
def keyPath (a : Arch) (k : ℕ) (key : CStr) (n : ℕ) : ℕ := probeSlot k (keyhash a key) n

/-- An array of `2 ^ k` entries that was allocated, with every key on its path. -/
structure Shape (a : Arch) (k : ℕ) (entries : List (Entry α)) : Prop where
  three_le : 3 ≤ k
  length_eq : entries.length = 2 ^ k
  fits : 2 ^ k * entrySize a < 2 ^ a.bits
  placed : Placed (keyPath a k) (keyAt entries)

/-- The invariant of a table between two calls. -/
structure Inv (a : Arch) (k : ℕ) (htab : Tab α) : Prop where
  shape : Shape a k htab.entries
  mask_eq : htab.mask = 2 ^ k - 1
  used_eq : htab.used = countUsed htab.entries
  load : htab.used ≤ htab.mask - htab.mask / 4

/-- The finite map a table stores. -/
def toMap (entries : List (Entry α)) (key : CStr) : Option α :=
  (entries.find? fun e => e.key = some key).map Entry.data

variable {k : ℕ} {entries : List (Entry α)} {key : CStr} {htab : Tab α}

theorem le_bits_of_fits (h : 2 ^ k * entrySize a < 2 ^ a.bits) : k + 1 < a.bits := by
  have hsize : 4 ≤ entrySize a := by cases a <;> decide
  have h4 : 2 ^ (k + 2) ≤ 2 ^ k * entrySize a := by
    rw [pow_add]
    exact Nat.mul_le_mul_left _ hsize
  have : 2 ^ (k + 2) < 2 ^ a.bits := by omega
  have := (Nat.pow_lt_pow_iff_right (by omega : 1 < 2)).mp this
  omega

theorem Shape.le_bits (h : Shape a k entries) : k + 1 < a.bits :=
  le_bits_of_fits h.fits

theorem Shape.mem_unique (h : Shape a k entries)
    {d d' : α} (hd : ⟨some key, d⟩ ∈ entries) (hd' : ⟨some key, d'⟩ ∈ entries) : d = d' := by
  obtain ⟨s, -, hs⟩ := exists_slotAt_eq hd
  obtain ⟨s', -, hs'⟩ := exists_slotAt_eq hd'
  obtain rfl : s = s' := h.placed.slot_unique (by rw [keyAt, hs]) (by rw [keyAt, hs'])
  rw [hs] at hs'
  exact (Entry.mk.inj hs').2

theorem Shape.toMap_eq_some_iff (h : Shape a k entries)
    {d : α} : toMap entries key = some d ↔ ⟨some key, d⟩ ∈ entries := by
  have hfound {e : Entry α} (hfind : entries.find? (fun e => e.key = some key) = some e) :
      ⟨some key, e.data⟩ ∈ entries := by
    have hkey : e.key = some key := by simpa using find?_some hfind
    rw [← hkey]
    exact mem_of_find?_eq_some hfind
  unfold toMap
  constructor
  · intro hd
    obtain ⟨e, hfind, rfl⟩ := Option.map_eq_some_iff.mp hd
    exact hfound hfind
  · intro hd
    cases hfind : entries.find? fun e => e.key = some key with
    | none => simpa using List.find?_eq_none.mp hfind _ hd
    | some e => exact congrArg some (h.mem_unique (hfound hfind) hd)

omit [Inhabited α] in
theorem toMap_eq_none_iff :
    toMap entries key = none ↔ ∀ d, (⟨some key, d⟩ : Entry α) ∉ entries := by
  simp only [toMap, map_eq_none_iff, find?_eq_none, decide_eq_true_eq]
  constructor
  · intro h d hd
    exact h _ hd rfl
  · rintro h ⟨key', d⟩ hd rfl
    exact h d hd

theorem toMap_eq_none_iff_keyAt :
    toMap entries key = none ↔ ∀ s, keyAt entries s ≠ some key := by
  rw [toMap_eq_none_iff]
  constructor
  · intro h s hs
    have hmem := slotAt_mem (lt_length_of_keyAt hs)
    refine h (slotAt entries s).data ?_
    rwa [← hs]
  · intro h d hd
    obtain ⟨s, -, hs⟩ := exists_slotAt_eq hd
    exact h s (by rw [keyAt, hs])

/-! ## Storing an entry where its walk ends -/

section Store

variable {k : ℕ} {entries : List (Entry α)} {item : Item α} {n : ℕ}

theorem Shape.store (h : Shape a k entries) (hn : Passed (keyPath a k) (keyAt entries) item.key n)
    (hfree : keyAt entries (keyPath a k item.key n) = none) :
    Shape a k (entries.set (keyPath a k item.key n) item.toEntry) where
  three_le := h.three_le
  length_eq := by simpa using h.length_eq
  fits := h.fits
  placed := by
    rw [keyAt_set (by rw [h.length_eq]; exact probeSlot_lt _ _ _)]
    exact h.placed.update hn hfree

theorem Shape.toMap_store (h : Shape a k entries) (hn : Passed (keyPath a k) (keyAt entries) item.key n)
    (hfree : keyAt entries (keyPath a k item.key n) = none) :
    toMap (entries.set (keyPath a k item.key n) item.toEntry) =
      Function.update (toMap entries) item.key (some item.data) := by
  have hlt : keyPath a k item.key n < entries.length := by
    rw [h.length_eq]
    exact probeSlot_lt _ _ _
  funext key
  refine ext fun d => ?_
  rw [(h.store hn hfree).toMap_eq_some_iff, mem_set_of_free hlt hfree _ _ rfl]
  by_cases hkey : key = item.key
  · subst hkey
    have habs : (⟨some item.key, d⟩ : Entry α) ∉ entries :=
      toMap_eq_none_iff.mp (toMap_eq_none_iff_keyAt.mpr (h.placed.absent hn hfree)) d
    simp [habs, Item.toEntry, eq_comm]
  · rw [Function.update_of_ne hkey, h.toMap_eq_some_iff]
    simp [Item.toEntry, hkey]

end Store

/-! ## Rehashing -/

/-- The keys of a list of entries are pairwise different. -/
def KeysDistinct (entries : List (Entry α)) : Prop :=
  entries.Pairwise fun e e' => e.key.isSome → e.key ≠ e'.key

theorem Shape.keysDistinct (h : Shape a k entries) :
    KeysDistinct entries := by
  refine List.pairwise_iff_getElem.mpr fun i j hi hj hij hsome heq => ?_
  obtain ⟨key, hkey⟩ := Option.isSome_iff_exists.mp hsome
  have hslot : ∀ s (hs : s < entries.length), keyAt entries s = (entries[s]).key := by
    intro s hs
    simp [keyAt, slotAt, getElem?_eq_getElem hs]
  have : i = j := h.placed.slot_unique (by rw [hslot i hi, hkey]) (by rw [hslot j hj, ← heq, hkey])
  omega

variable (fuel : ℕ)

/-- The loop over the old table moves every entry to the new one: the old keys are different from
each other and from those already moved, and there is room for all of them. -/
theorem rehash_spec (hfuel : 2 ^ k ≤ fuel) (old : List (Entry α)) :
    ∀ new : List (Entry α), Shape a k new → KeysDistinct old →
      (∀ e ∈ old, ∀ key, e.key = some key → ∀ s, keyAt new s ≠ some key) →
      countUsed new + countUsed old < 2 ^ k →
      ∃ new', rehash a fuel (2 ^ k - 1) old new = some new' ∧ Shape a k new' ∧
        countUsed new' = countUsed new + countUsed old ∧
        ∀ key d, (⟨some key, d⟩ : Entry α) ∈ new' ↔ ⟨some key, d⟩ ∈ new ∨ ⟨some key, d⟩ ∈ old := by
  induction old with
  | nil =>
    intro new hnew _ _ _
    exact ⟨new, rfl, hnew, by simp [countUsed], by simp⟩
  | cons e old ih =>
    intro new hnew hdist hfresh hroom
    obtain ⟨hhead, htail⟩ := List.pairwise_cons.mp hdist
    cases hkey : e.key with
    | none =>
      have hcount : countUsed (e :: old) = countUsed old := by simp [countUsed, hkey]
      obtain ⟨new', hrun, hshape, hused, hmem⟩ :=
        ih new hnew htail (fun x hx => hfresh x (by simp [hx])) (by omega)
      refine ⟨new', by simp [rehash, hkey, hrun], hshape, by omega, fun key d => ?_⟩
      have hne : (⟨some key, d⟩ : Entry α) ≠ e := by
        rintro rfl
        cases hkey
      simp [hmem, hne]
    | some key =>
      obtain ⟨item, rfl⟩ : ∃ item : Item α, e = item.toEntry :=
        ⟨⟨key, e.data⟩, by rw [Item.toEntry, ← hkey]⟩
      obtain rfl : item.key = key := some.inj hkey
      have hcount : countUsed (item.toEntry :: old) = countUsed old + 1 := by
        simp [countUsed, hkey]
      obtain ⟨s, hs, hfreeS⟩ := exists_free new (by rw [hnew.length_eq]; omega)
      rw [hnew.length_eq] at hs
      obtain ⟨n, hprobe, hstop, hpass⟩ := probe_spec
        (by have := hnew.le_bits; omega) hfuel (fun s => (keyAt new s).isNone) hs
        (by simp [hfreeS]) (keyhash_lt a item.key)
      have hfree : keyAt new (keyPath a k item.key n) = none := Option.isNone_iff_eq_none.mp hstop
      have hpassed : Passed (keyPath a k) (keyAt new) item.key n := by
        intro m hm
        obtain ⟨other, hother⟩ := Option.isSome_iff_exists.mp (by simpa using hpass m hm)
        refine ⟨other, hother, ?_⟩
        rintro rfl
        exact hfresh _ (by simp) _ hkey _ hother
      have hlt : keyPath a k item.key n < new.length := by
        rw [hnew.length_eq]
        exact probeSlot_lt _ _ _
      have hcount' := countUsed_set hlt hfree item
      obtain ⟨new', hrun, hshape, hused, hmem⟩ := ih _ (hnew.store hpassed hfree) htail
        (by
          intro x hx key' hx' s'
          rw [keyAt_set hlt]
          by_cases hs' : s' = keyPath a k item.key n
          · subst hs'
            rw [Function.update_self, ← hx']
            exact hhead x hx rfl
          · rw [Function.update_of_ne hs']
            exact hfresh x (by simp [hx]) key' hx' s')
        (by omega)
      refine ⟨new', ?_, hshape, by omega, fun key' d => ?_⟩
      · simp only [rehash, hkey, hprobe]
        exact hrun
      · rw [hmem, mem_set_of_free hlt hfree _ _ rfl, mem_cons]
        tauto

theorem shape_replicate (hk : 3 ≤ k) (hfits : 2 ^ k * entrySize a < 2 ^ a.bits) :
    Shape a k (List.replicate (2 ^ k) (Entry.null (α := α))) where
  three_le := hk
  length_eq := length_replicate
  fits := hfits
  placed := by
    rw [keyAt_replicate_null]
    exact placed_empty

theorem countUsed_replicate_null (n : ℕ) :
    countUsed (List.replicate n (Entry.null (α := α))) = 0 := by
  simp [countUsed, Entry.null]

theorem not_mem_replicate_null (n : ℕ) (key : CStr) (d : α) :
    (⟨some key, d⟩ : Entry α) ∉ List.replicate n Entry.null := by
  intro h
  have := eq_of_mem_replicate h
  simp [Entry.null] at this

theorem resize_null_spec {fuel : ℕ} (hfuel : a.bits ≤ fuel) (nel : ℕ) (ok : Bool) :
    resize (α := α) a fuel nel ok ⟨[], 0, 0⟩ = some (false, ⟨[], 0, 0⟩) ∧
        (∃ size, calloc a size (entrySize a) ok = false) ∨
      ∃ htab : Tab α, resize a fuel nel ok ⟨[], 0, 0⟩ = some (true, htab) ∧
        (∃ k, Inv a k htab) ∧ ∀ key, toMap htab.entries key = none := by
  have hnel : (if nel > maxSize a then maxSize a else nel) ≤ 2 ^ (a.bits - 1) := by
    rw [← maxSize_eq]
    split <;> omega
  have hbits : 3 < a.bits := by cases a <;> decide
  obtain ⟨k, hk, -, -, -, hgrow⟩ := growSize_spec hnel fuel hbits (by omega)
  have hgrow' : growSize a (if nel > maxSize a then maxSize a else nel) fuel minSize = some (2 ^ k) :=
    hgrow
  simp only [resize, hgrow', bind_some]
  by_cases hc : calloc a (2 ^ k) (entrySize a) ok = true
  · have hshape := shape_replicate (α := α) hk (mul_lt_of_calloc hc)
    refine Or.inr ⟨_, by rw [if_pos hc, if_pos trivial], ⟨k, hshape, rfl, ?_, ?_⟩, fun key => ?_⟩
    · exact (countUsed_replicate_null _).symm
    · exact Nat.zero_le _
    · exact toMap_eq_none_iff.mpr (not_mem_replicate_null _ key)
  · left
    rw [if_neg hc]
    exact ⟨rfl, 2 ^ k, by simpa using hc⟩

/-- **Growing a table**: one more key than the load bound allows doubles the number of slots and
keeps the stored entries, unless the allocation fails, which changes nothing. -/
theorem resize_spec (htab : Tab α) (hshape : Shape a k htab.entries)
    (hused : htab.used = countUsed htab.entries) (hover : 3 * 2 ^ k < 4 * htab.used)
    (hle : htab.used ≤ 2 ^ k) (hfuel : 2 ^ (k + 1) + a.bits ≤ fuel) (ok : Bool) :
    resize a fuel (a.wrap (2 * htab.used)) ok htab = some (false, htab) ∧
        calloc a (2 ^ (k + 1)) (entrySize a) ok = false ∨
      ∃ new, resize a fuel (a.wrap (2 * htab.used)) ok htab =
          some (true, { htab with entries := new, mask := 2 ^ (k + 1) - 1 }) ∧
        Shape a (k + 1) new ∧ countUsed new = htab.used ∧
        ∀ key d, (⟨some key, d⟩ : Entry α) ∈ new ↔ ⟨some key, d⟩ ∈ htab.entries := by
  have hkb := hshape.le_bits
  have hmax : 2 ^ (k + 1) ≤ 2 ^ (a.bits - 1) := Nat.pow_le_pow_right (by omega) (by omega)
  have hwrap : a.wrap (2 * htab.used) = 2 * htab.used := by
    refine Arch.wrap_of_lt (lt_of_le_of_lt ?_ (Nat.pow_lt_pow_right (by omega) hkb))
    omega
  have hnel : (if 2 * htab.used > maxSize a then maxSize a else 2 * htab.used) = 2 * htab.used := by
    rw [if_neg (by rw [maxSize_eq]; omega)]
  have hgrow : growSize a (2 * htab.used) fuel minSize = some (2 ^ (k + 1)) := by
    obtain ⟨k', h3, -, hle', hor, hgrow⟩ := growSize_spec (a := a) (i := 3)
      (show 2 * htab.used ≤ _ by omega) fuel (by have := hshape.three_le; omega) (by omega)
    -- `2 * used` lies above `2 ^ k` and not above `2 ^ (k + 1)`
    have hge : k + 1 ≤ k' := by
      by_contra hlt
      have := Nat.pow_le_pow_right (n := 2) (by omega) (show k' ≤ k by omega)
      omega
    have hk' : k' = k + 1 := by
      rcases hor with rfl | hlt
      · have := hshape.three_le
        omega
      · have : 2 ^ (k' - 1) < 2 ^ (k + 1) := by omega
        have := (Nat.pow_lt_pow_iff_right (by omega : 1 < 2)).mp this
        omega
    rw [← hk']
    exact hgrow
  have hne : htab.entries ≠ [] := by
    intro hnil
    have := hshape.length_eq
    rw [hnil, length_nil] at this
    omega
  simp only [resize, hwrap, hnel, hgrow, bind_some]
  by_cases hc : calloc a (2 ^ (k + 1)) (entrySize a) ok = true
  · right
    have hnew := shape_replicate (α := α) (by have := hshape.three_le; omega)
      (mul_lt_of_calloc hc)
    obtain ⟨new, hrun, hshape', hcount, hmem⟩ := rehash_spec fuel (by omega) htab.entries
      _ hnew hshape.keysDistinct
      (by
        intro e _ key _ s
        rw [keyAt_replicate_null]
        simp)
      (by rw [countUsed_replicate_null]; omega)
    refine ⟨new, by rw [if_pos hc, if_neg hne, hrun]; rfl, hshape', ?_, fun key d => ?_⟩
    · rw [hcount, countUsed_replicate_null]
      omega
    · rw [hmem, or_iff_right (not_mem_replicate_null _ key d)]
  · left
    rw [if_neg hc]
    exact ⟨rfl, by simpa using hc⟩

/-- **The loop of `lookup` ends** when the table has a free slot, at the slot of the key or at the
free slot that ends the walk along its path. -/
theorem lookup_spec (htab : Tab α) (hshape : Shape a k htab.entries)
    (hmask : htab.mask = 2 ^ k - 1) (hroom : countUsed htab.entries < 2 ^ k) (hfuel : 2 ^ k ≤ fuel) (key : CStr) :
    ∃ n, lookup a fuel key (keyhash a key) htab = some (keyPath a k key n) ∧
      Passed (keyPath a k) (keyAt htab.entries) key n ∧
      (keyAt htab.entries (keyPath a k key n) = none ∨
        keyAt htab.entries (keyPath a k key n) = some key) := by
  obtain ⟨s, hs, hfree⟩ := exists_free htab.entries (by rw [hshape.length_eq]; exact hroom)
  rw [hshape.length_eq] at hs
  obtain ⟨n, hprobe, hstop, hpass⟩ := probe_spec
    (by have := hshape.le_bits; omega) hfuel
    (fun e => keyAt htab.entries e = none || keyAt htab.entries e = some key) hs
    (by simp [hfree]) (keyhash_lt a key)
  refine ⟨n, by rw [lookup, hmask]; exact hprobe, fun m hm => ?_, by simpa [keyPath] using hstop⟩
  have hm' := hpass m hm
  simp only [Bool.or_eq_false_iff, decide_eq_false_iff_not] at hm'
  obtain ⟨other, hother⟩ := Option.ne_none_iff_exists'.mp hm'.1
  refine ⟨other, hother, ?_⟩
  rintro rfl
  exact hm'.2 hother

/-! ## One call -/

/-- What one call does to the stored map, and what it replies. -/
inductive Outcome (a : Arch) (item : Item α) (action : Action) (ok : Bool) (htab : Tab α) :
    Reply → Tab α → Prop where
  /-- The key is stored: its entry is handed out and nothing changes. -/
  | found {e : ℕ} {d : α} (hd : toMap htab.entries item.key = some d)
      (he : slotAt htab.entries e = ⟨some item.key, d⟩) : Outcome a item action ok htab ⟨1, some e⟩ htab
  /-- `FIND` of a key that is not stored. -/
  | missing (hd : toMap htab.entries item.key = none) (hact : action = .find) :
      Outcome a item action ok htab ⟨0, none⟩ htab
  /-- `ENTER` of a new key. -/
  | entered {e : ℕ} {htab' : Tab α} (hd : toMap htab.entries item.key = none) (hact : action = .enter)
      (he : slotAt htab'.entries e = item.toEntry)
      (hmap : toMap htab'.entries = Function.update (toMap htab.entries) item.key (some item.data)) :
      Outcome a item action ok htab ⟨1, some e⟩ htab'
  /-- `ENTER` of a new key for which the table could not grow. -/
  | failed {htab' : Tab α} {size : ℕ} (hd : toMap htab.entries item.key = none)
      (hact : action = .enter) (halloc : calloc a size (entrySize a) ok = false)
      (hmap : toMap htab'.entries = toMap htab.entries) :
      Outcome a item action ok htab ⟨0, none⟩ htab'

theorem slotAt_set_self {e : ℕ} (he : e < entries.length) (x : Entry α) :
    slotAt (entries.set e x) e = x := by
  simp [slotAt, he]

/-- Taking out the entry just stored in a free slot leaves the keys and the stored map as they
were. -/
theorem shape_undo {e : ℕ} (h : Shape a k entries)
    (he : e < entries.length) (hfree : keyAt entries e = none) (item : Item α) :
    Shape a k ((entries.set e item.toEntry).set e ⟨none, item.toEntry.data⟩) ∧
      countUsed ((entries.set e item.toEntry).set e ⟨none, item.toEntry.data⟩) = countUsed entries ∧
      toMap ((entries.set e item.toEntry).set e ⟨none, item.toEntry.data⟩) = toMap entries := by
  rw [set_set]
  have hkeys : keyAt (entries.set e ⟨none, item.toEntry.data⟩) = keyAt entries := by
    rw [keyAt_set he]
    exact Function.update_eq_self_iff.mpr hfree.symm
  have hshape : Shape a k (entries.set e ⟨none, item.toEntry.data⟩) :=
    ⟨h.three_le, by simpa using h.length_eq, h.fits, by rw [hkeys]; exact h.placed⟩
  refine ⟨hshape, ?_, funext fun key => ext fun d => ?_⟩
  · have hget : (entries[e]).key = none := by
      simpa [keyAt, slotAt, getElem?_eq_getElem he] using hfree
    simp [countUsed, countP_set he, hget]
  · rw [hshape.toMap_eq_some_iff, h.toMap_eq_some_iff, mem_set_of_free he hfree _ _ rfl]
    simp

/-- **One call** on a table with the invariant ends, keeps the invariant, and has one of the
outcomes. -/
theorem hsearchR_spec (h : Inv a k htab)
    (hfuel : 2 ^ (k + 1) + a.bits ≤ fuel) (item : Item α) (action : Action) (ok : Bool) :
    ∃ reply htab', hsearchR a fuel item action ok htab = some (reply, htab') ∧
      (∃ k' ≤ k + 1, Inv a k' htab') ∧ Outcome a item action ok htab reply htab' := by
  have hle := h.load
  rw [h.mask_eq] at hle
  have hpos := Nat.two_pow_pos k
  have hused := h.used_eq
  obtain ⟨n, hlook, hpass, hend⟩ :=
    lookup_spec fuel htab h.shape h.mask_eq (by omega) (by omega) item.key
  have hlt : keyPath a k item.key n < htab.entries.length := by
    rw [h.shape.length_eq]
    exact probeSlot_lt _ _ _
  simp only [hsearchR, hlook, bind_some]
  rcases hend with hfree | hkey
  · have habs : toMap htab.entries item.key = none :=
      toMap_eq_none_iff_keyAt.mpr (h.shape.placed.absent hpass hfree)
    rw [if_neg (by simp [hfree])]
    cases action with
    | find => exact ⟨_, _, if_pos rfl, ⟨k, by omega, h⟩, .missing habs rfl⟩
    | enter =>
      have hbits := h.shape.le_bits
      have hwrap : a.wrap (htab.used + 1) = htab.used + 1 := by
        have : 2 ^ (k + 1) < 2 ^ a.bits := Nat.pow_lt_pow_right (by omega) hbits
        exact Arch.wrap_of_lt (by omega)
      have hshape := h.shape.store hpass hfree
      have hmap := h.shape.toMap_store hpass hfree
      have hcount := countUsed_set hlt hfree item
      simp only [hwrap, h.mask_eq]
      by_cases hover : htab.used + 1 > 2 ^ k - 1 - (2 ^ k - 1) / 4
      · rw [if_pos hover]
        have hres := resize_spec fuel ⟨_, 2 ^ k - 1, htab.used + 1⟩ hshape
          (by simp only [hcount]; omega) (by simp only; omega) (by simp only; omega) (by omega) ok
        rcases hres with ⟨hres, halloc⟩ | ⟨new, hres, hnew, hcount', hmem⟩
        · -- the table could not grow: the new entry is taken out again
          rw [hres]
          obtain ⟨hshape', hcount', hmap'⟩ := shape_undo h.shape hlt hfree item
          simp only [bind_some, slotAt_set_self hlt,
            Nat.add_sub_cancel]
          exact ⟨_, _, rfl, ⟨k, by omega, hshape', rfl, by rw [hcount', hused], hle⟩,
            .failed habs rfl halloc hmap'⟩
        · rw [hres]
          simp only [bind_some]
          obtain ⟨m, hlook', hpass', hend'⟩ := lookup_spec fuel
            ⟨new, 2 ^ (k + 1) - 1, htab.used + 1⟩ hnew rfl (by simp only [hcount']; omega) (by omega)
            item.key
          have hmap' : toMap new = Function.update (toMap htab.entries) item.key (some item.data) := by
            rw [← hmap]
            funext key
            refine ext fun d => ?_
            rw [hnew.toMap_eq_some_iff, hshape.toMap_eq_some_iff, hmem]
          have hin : item.toEntry ∈ new := by
            rw [Item.toEntry, ← hnew.toMap_eq_some_iff, hmap', Function.update_self]
          have hslot : slotAt new (keyPath a (k + 1) item.key m) = item.toEntry := by
            obtain ⟨s, -, hs⟩ := exists_slotAt_eq hin
            have hkeyS : keyAt new s = some item.key := by rw [keyAt, hs]; rfl
            rcases hend' with hfree' | hkey'
            · exact absurd hkeyS (hnew.placed.absent hpass' hfree' s)
            · rw [← hnew.placed.slot_unique hkeyS hkey', hs]
          refine ⟨_, _, by rw [hlook']; rfl, ⟨k + 1, le_rfl, hnew, rfl, ?_, ?_⟩,
            .entered habs rfl hslot hmap'⟩
          · simpa using hcount'.symm
          · simp only
            omega
      · rw [if_neg hover]
        refine ⟨_, _, rfl, ⟨k, by omega, hshape, rfl, ?_, ?_⟩,
          .entered habs rfl (slotAt_set_self hlt _) hmap⟩
        · simp only [hcount]
          omega
        · simp only
          omega
  · rw [if_pos (by simp [hkey])]
    have hslot : slotAt htab.entries (keyPath a k item.key n) =
        ⟨some item.key, (slotAt htab.entries (keyPath a k item.key n)).data⟩ := by
      rw [← hkey]
      rfl
    refine ⟨_, _, rfl, ⟨k, by omega, h⟩, .found (h.shape.toMap_eq_some_iff.mpr ?_) hslot⟩
    rw [← hslot]
    exact slotAt_mem hlt

/-! ## Sessions -/

/-- A call, with the outcome of the allocation it may make. -/
structure Call (α : Type) where
  item : Item α
  action : Action
  ok : Bool

/-- A call of a run, its reply, and the table it leaves. -/
structure Event (α : Type) where
  call : Call α
  reply : Reply
  after : Tab α

/-- The calls made one after another on a table. -/
def run (a : Arch) (fuel : ℕ) : Tab α → List (Call α) → Option (List (Event α))
  | _, [] => some []
  | htab, c :: calls =>
    (hsearchR a fuel c.item c.action c.ok htab).bind fun r =>
      (run a fuel r.2 calls).map (⟨c, r.1, r.2⟩ :: ·)

/-- A table is created and the calls are made on it; the inner `none` is a creation that failed. -/
def session (a : Arch) (fuel nel : ℕ) (okTab okEntries : Bool) (calls : List (Call α)) :
    Option (Option (List (Event α))) :=
  (hcreateR a fuel nel okTab okEntries).bind fun
    | none => some none
    | some htab => (run a fuel htab calls).map some

/-- The item of the first `ENTER` of `key` that succeeded. -/
def firstEntered (trace : List (Event α)) (key : CStr) : Option (Item α) :=
  (trace.find? fun ev =>
    ev.call.action = .enter && ev.call.item.key = key && ev.reply.ret = 1).map fun ev => ev.call.item

/-- A reply that hands out an entry equal to `item`. -/
def HandsOut (ev : Event α) (item : Item α) : Prop :=
  ev.reply.ret = 1 ∧ ∃ e, ev.reply.retval = some e ∧ slotAt ev.after.entries e = item.toEntry

/-- What holds of an event after the events `past`: the reply is that of a finite map in which the
first entry of a key stays, and the table stores that map, each key once, with a slot to spare. -/
structure EventOk (a : Arch) (past : List (Event α)) (ev : Event α) : Prop where
  /-- A key entered before is found with its first entry, by `FIND` and by `ENTER`. -/
  known : ∀ item, firstEntered past ev.call.item.key = some item → HandsOut ev item
  /-- `FIND` of a key never entered finds nothing. -/
  unknown : firstEntered past ev.call.item.key = none → ev.call.action = .find →
    ev.reply = ⟨0, none⟩
  /-- `ENTER` of a key never entered stores it, or fails because an allocation failed. -/
  enter : firstEntered past ev.call.item.key = none → ev.call.action = .enter →
    HandsOut ev ev.call.item ∨
      ev.reply = ⟨0, none⟩ ∧ ∃ size, calloc a size (entrySize a) ev.call.ok = false
  /-- The stored entries are the first entries of the keys entered so far. -/
  stored : ∀ key, toMap ev.after.entries key =
    (firstEntered (past ++ [ev]) key).map Item.data
  /-- No key is stored twice. -/
  once : ∀ s s' key, keyAt ev.after.entries s = some key → keyAt ev.after.entries s' = some key →
    s = s'
  /-- A slot is free. -/
  free : ∃ s ≤ ev.after.mask, s < ev.after.entries.length ∧ keyAt ev.after.entries s = none

omit [Inhabited α] in
theorem firstEntered_append (past : List (Event α)) (ev : Event α) (key : CStr) :
    firstEntered (past ++ [ev]) key = (firstEntered past key).or (firstEntered [ev] key) := by
  simp only [firstEntered, find?_append, map_or]

omit [Inhabited α] in
/-- The key of a first entry is the key that was asked for. -/
theorem key_of_firstEntered {trace : List (Event α)} {item : Item α}
    (h : firstEntered trace key = some item) : item.key = key := by
  obtain ⟨ev, hev, rfl⟩ := Option.map_eq_some_iff.mp h
  have := find?_some hev
  simp only [Bool.and_eq_true, decide_eq_true_eq] at this
  exact this.1.2

theorem Inv.exists_free (h : Inv a k htab) :
    ∃ s ≤ htab.mask, s < htab.entries.length ∧ keyAt htab.entries s = none := by
  have hle := h.load
  have hpos := Nat.two_pow_pos k
  rw [h.mask_eq, h.used_eq] at hle
  obtain ⟨s, hs, hfree⟩ := Hsearch.exists_free htab.entries
    (by rw [h.shape.length_eq]; omega)
  have hs' := hs
  rw [h.shape.length_eq] at hs'
  exact ⟨s, by rw [h.mask_eq]; omega, hs, hfree⟩

/-- One event: the outcome of the call, read against the first entries of the past. -/
theorem eventOk_of_outcome {htab' : Tab α} {c : Call α} {reply : Reply} {past : List (Event α)} (hinv : Inv a k htab')
    (hpast : ∀ key, toMap htab.entries key = (firstEntered past key).map Item.data)
    (h : Outcome a c.item c.action c.ok htab reply htab') :
    EventOk a past ⟨c, reply, htab'⟩ := by
  have hnew : toMap htab.entries c.item.key = none → firstEntered past c.item.key = none := by
    intro hd
    rw [hpast] at hd
    exact Option.map_eq_none_iff.mp hd
  have honce := fun s s' key => @Placed.slot_unique _ _ _ hinv.shape.placed s s' key
  have hfree := hinv.exists_free
  cases h with
  | @found e d hd he =>
    obtain ⟨item, hitem, rfl⟩ := Option.map_eq_some_iff.mp ((hpast _).symm.trans hd)
    have hout : HandsOut ⟨c, ⟨1, some e⟩, htab⟩ item :=
      ⟨rfl, e, rfl, by rw [he, ← key_of_firstEntered hitem]; rfl⟩
    refine ⟨fun item' h' => ?_, by simp [hitem], by simp [hitem], fun key => ?_, honce, hfree⟩
    · obtain rfl := some.inj (hitem.symm.trans h')
      exact hout
    · rw [hpast, firstEntered_append]
      by_cases hkey : key = c.item.key
      · rw [hkey, hitem]
        rfl
      · simp [firstEntered, Ne.symm hkey]
  | missing hd hact =>
    refine ⟨by simp [hnew hd], fun _ _ => rfl, by simp [hact], fun key => ?_, honce, hfree⟩
    rw [hpast]
    simp [firstEntered]
  | @entered e _ hd hact he hmap =>
    refine ⟨by simp [hnew hd], by simp [hact], fun _ _ => Or.inl ⟨rfl, e, rfl, he⟩, fun key => ?_, honce, hfree⟩
    rw [hmap, firstEntered_append]
    by_cases hkey : key = c.item.key
    · subst hkey
      rw [hnew hd]
      simp [firstEntered, hact]
    · rw [Function.update_of_ne hkey, hpast]
      simp [firstEntered, Ne.symm hkey]
  | @failed _ size hd hact halloc hmap =>
    refine ⟨by simp [hnew hd], fun _ _ => rfl, fun _ _ => Or.inr ⟨rfl, size, halloc⟩, fun key => ?_, honce, hfree⟩
    rw [hmap, hpast]
    simp [firstEntered]

/-- **A run of calls** from a table that stores the first entries of the past ends, and every event
of it is as the finite map says. -/
theorem run_spec (calls : List (Call α)) :
    ∀ (k fuel : ℕ) (htab : Tab α) (past : List (Event α)), Inv a k htab →
      (∀ key, toMap htab.entries key = (firstEntered past key).map Item.data) →
      2 ^ (k + calls.length) + a.bits ≤ fuel →
      ∃ trace, run a fuel htab calls = some trace ∧ trace.map Event.call = calls ∧
        ∀ pre ev post, trace = pre ++ ev :: post → EventOk a (past ++ pre) ev := by
  induction calls with
  | nil =>
    intro k fuel htab past _ _ _
    exact ⟨[], rfl, rfl, by simp⟩
  | cons c calls ih =>
    intro k fuel htab past hinv hpast hfuel
    have hmono : 2 ^ (k + 1) ≤ 2 ^ (k + (c :: calls).length) :=
      Nat.pow_le_pow_right (by omega) (by simp)
    obtain ⟨reply, htab', hcall, ⟨k', hk', hinv'⟩, hout⟩ :=
      hsearchR_spec fuel hinv (by omega) c.item c.action c.ok
    have hev := eventOk_of_outcome hinv' hpast hout
    have hfuel' : 2 ^ (k' + calls.length) ≤ 2 ^ (k + (c :: calls).length) :=
      Nat.pow_le_pow_right (by omega) (by simp; omega)
    obtain ⟨trace, hrun, hcalls, htrace⟩ :=
      ih k' fuel htab' (past ++ [⟨c, reply, htab'⟩]) hinv' hev.stored (by omega)
    refine ⟨⟨c, reply, htab'⟩ :: trace, by simp [run, hcall, hrun], by simp [hcalls], ?_⟩
    rintro (_ | ⟨ev', pre⟩) ev post heq
    · obtain ⟨rfl, -⟩ := List.cons.inj heq
      simpa using hev
    · obtain ⟨rfl, htail⟩ := List.cons.inj heq
      simpa using htrace pre ev post htail

end Leblibc.Hsearch

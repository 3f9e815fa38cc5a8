import Leblibc.Multibyte.Utf8Correct

/-!
# The UTF-16 interface

A model of `mbrtoc16.c` and `c16rtomb.c` in `src/multibyte`, in a UTF-8 locale. Both functions keep a surrogate in the
word in which `mbrtowc` keeps a part of a character. A second surrogate that is still to be delivered is positive as an
`int`, and a part of a character is negative, so that they are never taken for each other.

## Main results

* `Reading.call`: a call of `mbrtoc16`
* `c16Run_units`: the units of a character
* `utf16_interface`: the round trip, and the units that are rejected
-/

namespace Leblibc.Multibyte

open List

/-! ## The functions -/

/-- The result of `mbrtoc16`: a unit and the number of bytes, a second surrogate with `-3`, or `-2`, or `-1`. -/
inductive Decoded16 where
  | unit (ret : ℕ) (c16 : UInt16) (st : BitVec 32)
  | second (c16 : UInt16) (st : BitVec 32)
  | incomplete (st : BitVec 32)
  | illegal (st : BitVec 32)
  deriving DecidableEq

/-- `mbrtoc16`. A null pointer stands for the empty string with its terminator. -/
def mbrtoc16 (st : BitVec 32) (s : Option (List UInt8)) : Decoded16 :=
  if 0 < st.toInt then .second (UInt16.ofNat st.toNat) 0
  else
    match mbrtowc true st (some (s.getD [0])) with
    | .char ret wc st =>
      if 0x10000 ≤ wc then .unit ret (UInt16.ofNat (0xd7c0 + wc / 2 ^ 10)) (BitVec.ofNat 32 (wc % 2 ^ 10 + 0xdc00))
      else .unit ret (UInt16.ofNat wc) st
    | .incomplete st => .incomplete st
    | .illegal st => .illegal st

/-- The call `wcrtomb(s, wc, 0)`, behind which the state is initial. -/
def storeChar (wc : BitVec 32) : Option ℕ × List UInt8 × BitVec 32 :=
  match wcrtomb true wc with
  | some bs => (some bs.length, bs, 0#32)
  | none => (none, [], 0#32)

/-- `c16rtomb`, where `s` says that the pointer is not null: the value that is returned, with `none` for `-1`, the bytes
that are stored, and the state. -/
def c16rtomb (s : Bool) (c16 : UInt16) (x : BitVec 32) : Option ℕ × List UInt8 × BitVec 32 :=
  let c := c16.toBitVec.setWidth 32
  if !s then if x ≠ 0#32 then (none, [], 0#32) else (some 1, [], x)
  else if x = 0#32 ∧ c - 0xd800#32 < 0x400#32 then (some 0, [], (c - 0xd7c0#32) <<< 10)
  else if x ≠ 0#32 then if c - 0xdc00#32 ≥ 0x400#32 then (none, [], 0#32) else storeChar (x + c - 0xdc00#32)
  else storeChar c

/-! ## Calls -/

/-- The units that have been delivered, the second surrogates marked, the bytes that are left, and the state. -/
structure Reader16 where
  units : List (UInt16 × Bool)
  rest : List UInt8
  st : BitVec 32

/-- A call of `mbrtoc16` with the next `n` bytes; `none` is a failure. -/
def Reader16.call (r : Reader16) (n : ℕ) : Option Reader16 :=
  match mbrtoc16 r.st (some (r.rest.take n)) with
  | .unit ret u st => some ⟨r.units ++ [(u, false)], r.rest.drop (max ret 1), st⟩
  | .second u st => some ⟨r.units ++ [(u, true)], r.rest, st⟩
  | .incomplete st => some ⟨r.units, r.rest.drop n, st⟩
  | .illegal _ => none

def Reader16.calls (r : Reader16) (ns : List ℕ) : Option Reader16 := ns.foldlM Reader16.call r

/-- Calls of `c16rtomb` for units, until one fails: the bytes that are stored, and the state. -/
def c16Run (x : BitVec 32) : List UInt16 → Option (List UInt8 × BitVec 32)
  | [] => some ([], x)
  | u :: us =>
    match c16rtomb true u x with
    | (none, _) => none
    | (some _, bs, x) => (c16Run x us).map fun r => (bs ++ r.1, r.2)

/-! ## Units -/

/-- The units of a character, the second surrogate marked. -/
def delivered (ch : Char) : List (UInt16 × Bool) :=
  if ch.toNat < 0x10000 then [(UInt16.ofNat ch.toNat, false)]
  else [(UInt16.ofNat (0xd800 + (ch.toNat - 0x10000) / 1024), false),
    (UInt16.ofNat (0xdc00 + (ch.toNat - 0x10000) % 1024), true)]

/-- The UTF-16 encoding of a character. -/
def units (ch : Char) : List UInt16 := (delivered ch).map Prod.fst

/-- The UTF-8 encoding of a string. -/
def text (cs : List Char) : List UInt8 := cs.flatMap String.utf8EncodeChar

abbrev IsHigh (u : UInt16) : Prop := 0xd800 ≤ u.toNat ∧ u.toNat < 0xdc00

abbrev IsLow (u : UInt16) : Prop := 0xdc00 ≤ u.toNat ∧ u.toNat < 0xe000

theorem toNat_ofNat_16 {n : ℕ} (h : n < 65536) : (UInt16.ofNat n).toNat = n := by
  exact Nat.mod_eq_of_lt h

theorem delivered_two {ch : Char} (h : 0x10000 ≤ ch.toNat) : ∃ u l, IsHigh u ∧ IsLow l ∧
    delivered ch = [(u, false), (l, true)] ∧ u = UInt16.ofNat (0xd7c0 + ch.toNat / 2 ^ 10) ∧
    l.toNat = ch.toNat % 2 ^ 10 + 0xdc00 ∧ ch.toNat = (u.toNat - 0xd7c0) * 1024 + (l.toNat - 0xdc00) := by
  have hch := char_bounds ch
  have hu : (UInt16.ofNat (0xd800 + (ch.toNat - 0x10000) / 1024)).toNat = _ := toNat_ofNat_16 (by omega)
  have hl : (UInt16.ofNat (0xdc00 + (ch.toNat - 0x10000) % 1024)).toNat = _ := toNat_ofNat_16 (by omega)
  refine ⟨_, _, ?_, ?_, if_neg (by omega), congrArg UInt16.ofNat (by omega), ?_, ?_⟩
  · omega
  · omega
  · omega
  · omega

/-- The units of a character are a unit that is no surrogate, or two surrogates. -/
theorem units_cases (ch : Char) : (∃ u, units ch = [u] ∧ u.toNat = ch.toNat ∧ ¬IsHigh u ∧ ¬IsLow u) ∨
    ∃ u l, units ch = [u, l] ∧ IsHigh u ∧ IsLow l ∧ ch.toNat = (u.toNat - 0xd7c0) * 1024 + (l.toNat - 0xdc00) := by
  rcases Nat.lt_or_ge ch.toNat 0x10000 with h | h
  · have hu := toNat_ofNat_16 h
    have hch := char_bounds ch
    exact .inl ⟨_, by rw [units, delivered, if_pos h]; rfl, hu, by omega⟩
  · obtain ⟨u, l, hu, hl, hd, -, -, hch⟩ := delivered_two h
    exact .inr ⟨u, l, by rw [units, hd]; rfl, hu, hl, hch⟩

/-! ## Decoding -/

/-- The bytes of a string, or the first of them: the first character, if they have all of its bytes. -/
theorem mbrtowc_text {s t : List UInt8} {cs : List Char} (h : s ++ t = text cs) :
    (∃ st, mbrtowc true 0#32 (some s) = .incomplete st) ∨ ∃ ch cs' s' ret, cs = ch :: cs' ∧
      s = encode ch.toNat ++ s' ∧ s' ++ t = text cs' ∧ mbrtowc true 0#32 (some s) = .char ret ch.toNat 0 ∧
      max ret 1 = (encode ch.toNat).length := by
  have hext := mbrtowc_append (Or.inl rfl) s t
  cases cs with
  | nil =>
    obtain ⟨rfl, -⟩ := List.append_eq_nil_iff.mp h
    exact .inl ⟨_, rfl⟩
  | cons ch cs =>
    obtain ⟨ret, hrun, hret⟩ := mbrtowc_of_sequence (sequence_encode (char_bounds ch)) (text cs)
    rw [h, text, flatMap_cons, utf8EncodeChar_eq, ← text, hrun] at hext
    cases hs : mbrtowc true 0#32 (some s) with
    | incomplete st => exact .inl ⟨st, rfl⟩
    | illegal st => cases (hext.illegal st hs).1.trans hs
    | char ret' wc st =>
      obtain ⟨heq, -, hle, hne⟩ := hext.char ret' wc st hs
      rw [hs] at heq
      cases heq
      have hpos := List.length_pos_iff.mpr hne
      have hpre : encode ch.toNat <+: s := by
        refine prefix_of_prefix_length_le ⟨text cs, rfl⟩ ⟨t, h⟩ ?_
        omega
      obtain ⟨s', rfl⟩ := hpre
      rw [append_assoc] at h
      exact .inr ⟨ch, cs, s', ret, rfl, rfl, append_cancel_left h, rfl, hret⟩

theorem zero_not_pos : ¬0 < (0 : BitVec 32).toInt := by decide

theorem not_pos_of_valid {st : BitVec 32} (h : Valid st) : ¬0 < st.toInt := by
  rcases h with rfl | ⟨lo, hi, k, acc, h⟩
  · exact zero_not_pos
  · have htop := h.top
    rw [BitVec.toInt_eq_toNat_cond]
    omega

/-- The reader has delivered the units of some characters and has a part of the next one, or has still to deliver a
second surrogate. -/
def Reading (cs : List Char) (r : Reader16) : Prop :=
  ∃ done todo, cs = done ++ todo ∧
    ((∃ p, r.units = done.flatMap delivered ∧ p ++ r.rest = text todo ∧
        mbrtowc true 0#32 (some p) = .incomplete r.st) ∨
      ∃ u : UInt16, IsLow u ∧ r.st = BitVec.ofNat 32 u.toNat ∧ r.units ++ [(u, true)] = done.flatMap delivered ∧
        r.rest = text todo)

/-- The calls that are needed at most, if none is made without bytes. -/
def Reader16.left (r : Reader16) : ℕ := 2 * r.rest.length + if 0 < r.st.toInt then 1 else 0

theorem low_state {u : UInt16} (hu : IsLow u) :
    0 < (BitVec.ofNat 32 u.toNat).toInt ∧ UInt16.ofNat (BitVec.ofNat 32 u.toNat).toNat = u := by
  have hnat : (BitVec.ofNat 32 u.toNat).toNat = u.toNat := by
    exact Nat.mod_eq_of_lt (by omega)
  refine ⟨?_, by rw [hnat, UInt16.ofNat_toNat]⟩
  rw [BitVec.toInt_eq_toNat_cond]
  omega

/-- **A call of `mbrtoc16`.** -/
theorem Reading.call {cs : List Char} {r : Reader16} (h : Reading cs r) (n : ℕ) :
    ∃ r', r.call n = some r' ∧ Reading cs r' ∧ r'.left ≤ r.left - if 0 < n then 1 else 0 := by
  obtain ⟨units, rest, st⟩ := r
  obtain ⟨done, todo, rfl, ⟨p, rfl, hrest, hp⟩ | ⟨u, hu, rfl, hunits, rfl⟩⟩ := h
  · -- the bytes of this call behind those of the calls before
    have hext := mbrtowc_append (Or.inl rfl) p (rest.take n)
    obtain ⟨hlong, hvalid, -⟩ := hext.incomplete st hp
    have hneg := not_pos_of_valid hvalid
    have hcall : mbrtoc16 st (some (rest.take n)) = _ := if_neg hneg
    rw [← take_append_drop n rest, ← append_assoc] at hrest
    unfold Reader16.call Reader16.left
    rw [hcall, Option.getD_some]
    rcases mbrtowc_text hrest with ⟨st', hst'⟩ | ⟨ch, todo, s', ret, rfl, hs', htodo, hchar, hret⟩
    · rw [hst'] at hlong
      cases hrun : mbrtowc true st (some (rest.take n)) with
      | char ret wc st => rw [hrun] at hlong; cases hlong
      | illegal st => rw [hrun] at hlong; cases hlong
      | incomplete st'' =>
        rw [hrun] at hlong
        cases hlong
        have hvalid' := ((mbrtowc_append hvalid (rest.take n) []).incomplete st' hrun).2.1
        refine ⟨_, rfl, ⟨done, todo, rfl, .inl ⟨_, rfl, hrest, hst'⟩⟩, ?_⟩
        simp only [if_neg hneg, if_neg (not_pos_of_valid hvalid'), length_drop]
        split <;> omega
    · rw [hchar] at hlong
      cases hrun : mbrtowc true st (some (rest.take n)) with
      | incomplete st => rw [hrun] at hlong; cases hlong
      | illegal st => rw [hrun] at hlong; cases hlong
      | char ret' wc st' =>
        have hmax := max_ret_add (Or.inl rfl) hp hrun
        rw [hrun] at hlong
        cases hlong
        have hdrop : rest.drop (max ret' 1) = text todo := by
          have hall : p ++ rest = encode ch.toNat ++ text todo := by
            rw [← htodo, ← append_assoc, ← hs', append_assoc, take_append_drop]
          have := congrArg (List.drop (encode ch.toNat).length) hall
          rwa [drop_left, ← hret, hmax, ← drop_drop, drop_left] at this
        have hpos : max ret' 1 ≤ rest.length := by
          have hle := ((mbrtowc_append hvalid (rest.take n) []).char ret' _ _ hrun).2.2
          have hpos := List.length_pos_iff.mpr hle.2
          rw [length_take] at hle hpos
          omega
        have hlen := congrArg List.length hdrop
        rw [length_drop] at hlen
        rcases Nat.lt_or_ge ch.toNat 0x10000 with hbmp | hbmp
        · simp only [if_neg (show ¬0x10000 ≤ ch.toNat by omega), hdrop]
          refine ⟨_, rfl, ⟨done ++ [ch], todo, by simp, .inl ⟨[], ?_, rfl, rfl⟩⟩, ?_⟩
          · rw [flatMap_append, flatMap_singleton, delivered, if_pos hbmp]
          · simp only [if_neg hneg, if_neg zero_not_pos]
            split <;> omega
        · obtain ⟨u, l, hu, hl, hd, rfl, hnat, -⟩ := delivered_two hbmp
          simp only [if_pos hbmp, hdrop, ← hnat]
          refine ⟨_, rfl, ⟨done ++ [ch], todo, by simp, .inr ⟨l, hl, rfl, ?_, rfl⟩⟩, ?_⟩
          · rw [flatMap_append, flatMap_singleton, hd, append_assoc]
            rfl
          · simp only [if_neg hneg, if_pos (low_state hl).1]
            split <;> omega
  · -- the second surrogate
    obtain ⟨hpos, hunit⟩ := low_state hu
    refine ⟨⟨units ++ [(u, true)], text todo, 0⟩, ?_, ⟨done, todo, rfl, .inl ⟨[], hunits, rfl, rfl⟩⟩, ?_⟩
    · rw [Reader16.call, mbrtoc16, if_pos hpos, hunit]
    · simp only [Reader16.left, if_pos hpos, if_neg zero_not_pos]
      split <;> omega

theorem Reading.calls {cs : List Char} {r : Reader16} (h : Reading cs r) (ns : List ℕ) :
    ∃ r', r.calls ns = some r' ∧ Reading cs r' ∧ r'.left ≤ r.left - ns.countP (0 < ·) := by
  induction ns generalizing r with
  | nil => exact ⟨r, rfl, h, le_rfl⟩
  | cons n ns ih =>
    obtain ⟨r1, hcall, h1, hle1⟩ := h.call n
    obtain ⟨r2, hcalls, h2, hle2⟩ := ih h1
    refine ⟨r2, by rw [Reader16.calls, foldlM_cons, hcall]; exact hcalls, h2, ?_⟩
    simp only [countP_cons, decide_eq_true_eq]
    omega

/-- What has been delivered is the beginning of the units of the string, and all of them if nothing is left. -/
theorem Reading.units {cs : List Char} {r : Reader16} (h : Reading cs r) :
    r.units <+: cs.flatMap delivered ∧ (r.left = 0 → r.units = cs.flatMap delivered) := by
  obtain ⟨done, todo, rfl, ⟨p, hunits, hrest, hp⟩ | ⟨u, hu, hst, hunits, -⟩⟩ := h
  · rw [flatMap_append, hunits]
    refine ⟨prefix_append _ _, fun hleft => ?_⟩
    have hnil : r.rest = [] := List.length_eq_zero_iff.mp (by unfold Reader16.left at hleft; omega)
    rw [hnil] at hrest
    rcases mbrtowc_text hrest with ⟨st, -⟩ | ⟨ch, cs, s, ret, -, -, -, hchar, -⟩
    · cases todo with
      | nil => simp
      | cons ch todo =>
        obtain ⟨ret, hrun, -⟩ := mbrtowc_of_sequence (sequence_encode (char_bounds ch)) (text todo)
        rw [append_nil] at hrest
        rw [hrest] at hp
        cases hp.symm.trans hrun
    · cases hp.symm.trans hchar
  · rw [flatMap_append, ← hunits, append_assoc]
    refine ⟨prefix_append _ _, fun hleft => ?_⟩
    rw [Reader16.left, hst, if_pos (low_state hu).1] at hleft
    omega

/-! ## Encoding -/

section Encoding

variable {u l : UInt16}

/-- The state behind a first surrogate. -/
def hold (u : UInt16) : BitVec 32 := BitVec.ofNat 32 ((u.toNat - 0xd7c0) * 1024)

theorem toNat_hold (hu : IsHigh u) : (hold u).toNat = (u.toNat - 0xd7c0) * 1024 := by
  rw [hold, BitVec.toNat_ofNat]
  exact Nat.mod_eq_of_lt (by omega)

theorem toNat_unit (u : UInt16) : (u.toBitVec.setWidth 32).toNat = u.toNat := by
  rw [BitVec.toNat_setWidth]
  exact Nat.mod_eq_of_lt (u.toNat_lt.trans (by decide))

theorem hold_ne_zero (hu : IsHigh u) : hold u ≠ 0#32 := by
  intro h
  have := toNat_hold hu
  rw [h, BitVec.toNat_zero] at this
  omega

theorem c16rtomb_zero (u : UInt16) : c16rtomb true u 0#32 =
    if IsHigh u then (some 0, [], hold u) else storeChar (u.toBitVec.setWidth 32) := by
  have hnat := toNat_unit u
  have hhigh : u.toBitVec.setWidth 32 - 0xd800#32 < 0x400#32 ↔ IsHigh u := by
    rw [BitVec.lt_def, BitVec.toNat_sub]
    simp only [BitVec.toNat_ofNat]
    omega
  simp only [c16rtomb, Bool.not_true, Bool.false_eq_true, if_false, true_and, hhigh]
  split
  · rename_i hu
    refine congrArg (some 0, [], ·) (BitVec.eq_of_toNat_eq ?_)
    rw [BitVec.toNat_shiftLeft, BitVec.toNat_sub, toNat_hold hu]
    simp only [BitVec.toNat_ofNat]
    omega
  · rfl

theorem c16rtomb_hold (hu : IsHigh u) (l : UInt16) : c16rtomb true l (hold u) =
    if IsLow l then storeChar (hold u + l.toBitVec.setWidth 32 - 0xdc00#32) else (none, [], 0#32) := by
  have hne := hold_ne_zero hu
  have hlt := l.toNat_lt
  have hlow : l.toBitVec.setWidth 32 - 0xdc00#32 ≥ 0x400#32 ↔ ¬IsLow l := by
    rw [ge_iff_le, BitVec.le_def, BitVec.toNat_sub, toNat_unit]
    simp only [BitVec.toNat_ofNat]
    omega
  simp only [c16rtomb, Bool.not_true, Bool.false_eq_true, if_false, hne, false_and, if_true,
    hlow, ite_not]

theorem storeChar_char {wc : BitVec 32} {ch : Char} (h : wc.toNat = ch.toNat) :
    storeChar wc = (some (encode ch.toNat).length, encode ch.toNat, 0#32) := by
  rw [storeChar, wcrtomb_eq, h, if_pos (char_bounds ch)]

theorem storeChar_low (hu : IsLow u) : storeChar (u.toBitVec.setWidth 32) = (none, [], 0#32) := by
  rw [storeChar, wcrtomb_eq, toNat_unit, if_neg (by omega)]

theorem toNat_pair (hu : IsHigh u) (hl : IsLow l) : (hold u + l.toBitVec.setWidth 32 - 0xdc00#32).toNat =
    (u.toNat - 0xd7c0) * 1024 + (l.toNat - 0xdc00) := by
  rw [BitVec.toNat_sub, BitVec.toNat_add, toNat_hold hu, toNat_unit]
  simp only [BitVec.toNat_ofNat]
  omega

/-- **The units of a character** give its bytes back. -/
theorem c16Run_units (ch : Char) (us : List UInt16) :
    c16Run 0#32 (units ch ++ us) = (c16Run 0#32 us).map fun r => (encode ch.toNat ++ r.1, r.2) := by
  rcases units_cases ch with ⟨u, h, hnat, hhigh, -⟩ | ⟨u, l, h, hu, hl, hch⟩
  · rw [h, singleton_append, c16Run, c16rtomb_zero, if_neg hhigh, storeChar_char ((toNat_unit u).trans hnat)]
  · have hwc := (toNat_pair hu hl).trans hch.symm
    have hsecond : c16Run (hold u) (l :: us) = (c16Run 0#32 us).map fun r => (encode ch.toNat ++ r.1, r.2) := by
      rw [c16Run, c16rtomb_hold hu, if_pos hl, storeChar_char hwc]
    rw [h, cons_append, singleton_append, c16Run, c16rtomb_zero, if_pos hu]
    simp only [hsecond, nil_append, Option.map_id']

theorem c16Run_text (cs : List Char) : c16Run 0#32 (cs.flatMap units) = some (text cs, 0#32) := by
  induction cs with
  | nil => rfl
  | cons ch cs ih =>
    rw [flatMap_cons, c16Run_units, ih]
    rfl

/-! ## Units that are not well-formed -/

/-- The UTF-16 encodings of strings. -/
def WellFormed (us : List UInt16) : Prop := ∃ cs : List Char, us = cs.flatMap units

theorem WellFormed.units {us : List UInt16} (h : WellFormed us) (ch : Char) : WellFormed (units ch ++ us) := by
  obtain ⟨cs, rfl⟩ := h
  exact ⟨ch :: cs, rfl⟩

theorem exists_units (h : ¬IsHigh u ∧ ¬IsLow u) : ∃ ch, units ch = [u] := by
  have hlt := u.toNat_lt
  obtain ⟨ch, hch⟩ := exists_char (n := u.toNat) (by omega)
  refine ⟨ch, ?_⟩
  rw [units, delivered, if_pos (by omega), hch, UInt16.ofNat_toNat]
  rfl

theorem exists_units_pair (hu : IsHigh u) (hl : IsLow l) : ∃ ch, units ch = [u, l] := by
  obtain ⟨ch, hch⟩ := exists_char (n := (u.toNat - 0xd7c0) * 1024 + (l.toNat - 0xdc00)) (by omega)
  refine ⟨ch, ?_⟩
  rcases units_cases ch with ⟨u', -, hnat, -⟩ | ⟨u', l', h, hu', hl', hch'⟩
  · have := u'.toNat_lt
    omega
  · rw [h, UInt16.toNat_inj.mp (show u'.toNat = u.toNat by omega), UInt16.toNat_inj.mp (show l'.toNat = l.toNat by omega)]

theorem wellFormed_cons {us : List UInt16} : WellFormed (u :: us) ↔
    (¬IsHigh u ∧ ¬IsLow u) ∧ WellFormed us ∨ IsHigh u ∧ ∃ l us', us = l :: us' ∧ IsLow l ∧ WellFormed us' := by
  constructor
  · rintro ⟨_ | ⟨ch, cs⟩, h⟩
    · cases h
    · rw [flatMap_cons] at h
      rcases units_cases ch with ⟨u', e, -, hu⟩ | ⟨u', l, e, hu, hl, -⟩ <;> rw [e] at h
      · obtain ⟨rfl, rfl⟩ := List.cons.inj h
        exact .inl ⟨hu, cs, rfl⟩
      · obtain ⟨rfl, rfl⟩ := List.cons.inj h
        exact .inr ⟨hu, l, _, rfl, hl, cs, rfl⟩
  · rintro (⟨hu, h⟩ | ⟨hu, l, us, rfl, hl, h⟩)
    · obtain ⟨ch, hch⟩ := exists_units hu
      have := h.units ch
      rwa [hch] at this
    · obtain ⟨ch, hch⟩ := exists_units_pair hu hl
      have := h.units ch
      rwa [hch] at this

theorem wellFormed_units_iff (ch : Char) (us : List UInt16) : WellFormed (units ch ++ us) ↔ WellFormed us := by
  refine ⟨fun h => ?_, fun h => h.units ch⟩
  rcases units_cases ch with ⟨u, e, -, hu⟩ | ⟨u, l, e, hu, hl, -⟩ <;> rw [e] at h
  · exact (wellFormed_cons.mp h).elim And.right fun h => absurd h.1 hu.1
  · obtain ⟨hu', -⟩ | ⟨-, l, us, heq, -, h⟩ := wellFormed_cons.mp h
    · exact absurd hu hu'.1
    · cases heq
      exact h

/-- **The units that are accepted** are the beginnings of well-formed units. -/
theorem c16Run_accepts : ∀ us, c16Run 0#32 us ≠ none ↔ ∃ vs, WellFormed (us ++ vs)
  | [] => iff_of_true nofun ⟨[], [], rfl⟩
  | u :: us => by
    have hchar (ch : Char) (us : List UInt16) (ih : c16Run 0#32 us ≠ none ↔ ∃ vs, WellFormed (us ++ vs)) :
        c16Run 0#32 (units ch ++ us) ≠ none ↔ ∃ vs, WellFormed (units ch ++ us ++ vs) := by
      rw [c16Run_units, ne_eq, Option.map_eq_none_iff, ← ne_eq, ih]
      simp only [append_assoc, wellFormed_units_iff]
    by_cases hu : IsHigh u
    · have hfirst (us : List UInt16) : c16Run 0#32 (u :: us) = (c16Run (hold u) us).map fun r => ([] ++ r.1, r.2) := by
        rw [c16Run, c16rtomb_zero, if_pos hu]
      cases us with
      | nil =>
        obtain ⟨ch, hch⟩ := exists_units_pair hu (l := 0xdc00) (by decide)
        exact iff_of_true (by rw [hfirst]; nofun) ⟨[0xdc00], [ch], by simp [hch]⟩
      | cons l us =>
        by_cases hl : IsLow l
        · obtain ⟨ch, hch⟩ := exists_units_pair hu hl
          have := hchar ch us (c16Run_accepts us)
          rwa [hch] at this
        · have hsecond : c16Run (hold u) (l :: us) = none := by rw [c16Run, c16rtomb_hold hu, if_neg hl]
          refine iff_of_false (by rw [hfirst, hsecond]; exact not_not_intro rfl) ?_
          rintro ⟨vs, h⟩
          obtain ⟨hu', -⟩ | ⟨-, l', us', heq, hl', -⟩ := wellFormed_cons.mp h
          · exact hu'.1 hu
          · cases heq
            exact hl hl'
    · by_cases hl : IsLow u
      · refine iff_of_false (by rw [c16Run, c16rtomb_zero, if_neg hu, storeChar_low hl]; exact not_not_intro rfl) ?_
        rintro ⟨vs, h⟩
        exact (wellFormed_cons.mp h).elim (fun h => h.1.2 hl) fun h => hu h.1
      · obtain ⟨ch, hch⟩ := exists_units ⟨hu, hl⟩
        have := hchar ch us (c16Run_accepts us)
        rwa [hch] at this

end Encoding

/-- **The UTF-16 interface.** However a string is divided among calls of `mbrtoc16`, none of them fails, and they deliver
the UTF-16 encoding, each second surrogate by a call of its own, all of it once there have been enough calls with some
bytes; from these units `c16rtomb` makes the string again; and it accepts units up to the first one with which they are
not the beginning of well-formed UTF-16. -/
theorem utf16_interface :
    (∀ cs ns, ∃ r, (Reader16.mk [] (text cs) 0#32).calls ns = some r ∧ r.units <+: cs.flatMap delivered ∧
      (2 * (text cs).length ≤ ns.countP (0 < ·) → r.units = cs.flatMap delivered)) ∧
    (∀ cs, c16Run 0#32 (cs.flatMap units) = some (text cs, 0#32)) ∧
    ∀ us, c16Run 0#32 us ≠ none ↔ ∃ vs, WellFormed (us ++ vs) := by
  refine ⟨fun cs ns => ?_, c16Run_text, c16Run_accepts⟩
  have hstart : Reading cs ⟨[], text cs, 0#32⟩ := ⟨[], cs, rfl, .inl ⟨[], rfl, rfl, rfl⟩⟩
  obtain ⟨r, hrun, hreading, hle⟩ := hstart.calls ns
  obtain ⟨hfront, hall⟩ := hreading.units
  have hleft : (Reader16.mk [] (text cs) 0#32).left = 2 * (text cs).length := rfl
  exact ⟨r, hrun, hfront, fun hmany => hall (by omega)⟩

end Leblibc.Multibyte

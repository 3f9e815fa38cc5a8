import Leblibc.Multibyte.Utf8State

/-!
# UTF-8

A caller of `mbrtowc` gets the same characters, and the same failure, in whatever pieces it passes the bytes;
what it gets to the end without a failure is what is well-formed; and `wcrtomb` is the inverse. Well-formed
bytes are the encodings of a sequence of Unicode scalar values, the type `Char`, so that there are no overlong
forms, no surrogates and nothing above `U+10FFFF` among them.

## Main results

* `mbrtowc_append`: a call with more bytes
* `feed_append`: the bytes in two buffers, and in one
* `mbrtowc_encode`, `encode_of_mbrtowc`: the characters that are decoded
* `utf8_codec`: all of it
-/

namespace Leblibc.Multibyte

open List

/-! ## Bytes in pieces -/

/-- The states between calls. -/
def Valid (st : BitVec 32) : Prop := st = 0#32 ∨ ∃ lo hi k acc, Pending st lo hi k acc

/-- The result of a call, with `n` bytes more in front. -/
def Decoded.shift (n : ℕ) : Decoded → Decoded
  | .char ret wc st => .char (ret + n) wc st
  | .incomplete st => .incomplete st
  | .illegal st => .illegal st

@[simp]
theorem Decoded.shift_zero (d : Decoded) : d.shift 0 = d := by
  cases d <;> rfl

/-- What a call with more bytes gives, after one with the bytes `s` has given `d`: the same, if it has come to
an end, and otherwise what a later call with the other bytes gives. -/
structure Extends (s : List UInt8) (d longer : Decoded) (later : BitVec 32 → Decoded) : Prop where
  char : ∀ ret wc st, d = .char ret wc st → longer = d ∧ st = 0#32 ∧ ret ≤ s.length ∧ s ≠ []
  illegal : ∀ st, d = .illegal st → longer = d ∧ st = 0#32
  incomplete : ∀ st, d = .incomplete st → longer = later st ∧ Valid st ∧ (s ≠ [] → st ≠ 0#32)

variable {s : List UInt8} {wc : ℕ} {b : UInt8} {fuel fuel' : ℕ} {r : Reader} {n : ℕ}

section Append

variable {c : BitVec 32} {lo hi k acc : ℕ}

theorem decodeLoop_add (c : BitVec 32) (s : List UInt8) (n m : ℕ) :
    decodeLoop c s (n + m) = (decodeLoop c s n).shift m := by
  induction s generalizing c n with
  | nil => rfl
  | cons b s ih =>
    rw [decodeLoop.eq_def, decodeLoop.eq_def c (b :: s) n]
    simp only []
    split
    · rw [Nat.add_right_comm]
      rfl
    · cases s with
      | nil => rfl
      | cons b' s =>
        simp only []
        split
        · rfl
        · rw [Nat.add_right_comm, ih]

theorem resume_add (c : BitVec 32) (s : List UInt8) (n m : ℕ) :
    resume c s (n + m) = (resume c s n).shift m := by
  cases s with
  | nil => rfl
  | cons b s =>
    simp only [resume]
    split
    · rfl
    · exact decodeLoop_add c (b :: s) n m

/-- The result of a call after the first byte of a character. -/
structure Resumes (s : List UInt8) (n : ℕ) (d longer : Decoded) (later : BitVec 32 → ℕ → Decoded) : Prop where
  char : ∀ ret wc st, d = .char ret wc st → longer = d ∧ st = 0#32 ∧ n < ret ∧ ret ≤ n + s.length
  illegal : ∀ st, d = .illegal st → longer = d ∧ st = 0#32
  incomplete : ∀ st, d = .incomplete st →
    longer = later st (n + s.length) ∧ ∃ lo hi k acc, Pending st lo hi k acc

theorem resume_append (h : Pending c lo hi k acc) (s t : List UInt8) (n : ℕ) :
    Resumes s n (resume c s n) (resume c (s ++ t) n) fun st m => resume st t m := by
  induction s generalizing c lo hi k acc n with
  | nil =>
    refine ⟨nofun, nofun, fun st hst => ?_⟩
    cases hst
    exact ⟨rfl, lo, hi, k, acc, h⟩
  | cons b s ih =>
    have hs := resume_cons h b s n
    have hst := resume_cons h b (s ++ t) n
    rw [cons_append, hs, hst]
    by_cases hb : lo ≤ b.toNat ∧ b.toNat < hi
    · simp only [if_pos hb]
      by_cases hk : k = 1
      · simp only [if_pos hk]
        refine ⟨fun ret wc st hd => ?_, nofun, nofun⟩
        cases hd
        exact ⟨rfl, rfl, Nat.lt_succ_self n, by rw [length_cons]; omega⟩
      · simp only [if_neg hk]
        have hk' := h.k_bounds
        have hcont := h.cont
        obtain ⟨j, rfl⟩ : ∃ j, k = j + 1 := ⟨k - 1, by omega⟩
        have hrest := ih (pending_shiftIn (b := b) h (by omega) (by omega)) (n + 1)
        refine ⟨fun ret wc st hd => ?_, hrest.illegal, fun st hd => ?_⟩
        · obtain ⟨h1, h2, h3, h4⟩ := hrest.char ret wc st hd
          rw [length_cons]
          exact ⟨h1, h2, by omega, by omega⟩
        · obtain ⟨h1, h2⟩ := hrest.incomplete st hd
          rw [length_cons, Nat.add_comm s.length 1, ← Nat.add_assoc]
          exact ⟨h1, h2⟩
    · simp only [if_neg hb]
      refine ⟨nofun, fun st hd => ?_, nofun⟩
      cases hd
      exact ⟨rfl, rfl⟩

theorem mbrtowc_of_pending (h : Pending c lo hi k acc) (s : List UInt8) :
    mbrtowc true c (some s) = resume c s 0 := by
  cases s with
  | nil => rfl
  | cons b s => exact if_neg h.ne_zero

theorem ret_pos (h : Pending c lo hi k acc) {ret : ℕ} {st : BitVec 32}
    (hrun : mbrtowc true c (some s) = .char ret wc st) : 0 < ret := by
  rw [mbrtowc_of_pending h] at hrun
  exact ((resume_append h s [] 0).char ret wc st hrun).2.2.1

theorem mbrtowc_lead (hb : 0x80 ≤ b.toNat) (s : List UInt8) :
    mbrtowc true 0#32 (some (b :: s)) =
      if 0xc2 ≤ b.toNat ∧ b.toNat ≤ 0xf4 then resume (bittab.getD (b.toNat - 0xc2) 0) s 1
      else .illegal 0 := by
  have hlt := b.toNat_lt
  have htest : b.toBitVec.setWidth 32 - 0xc2#32 > 0xf4#32 - 0xc2#32 ↔
      ¬ (0xc2 ≤ b.toNat ∧ b.toNat ≤ 0xf4) := by
    rw [gt_iff_lt, BitVec.lt_def, BitVec.toNat_sub, BitVec.toNat_sub, toNat_setWidth]
    simp only [BitVec.toNat_ofNat]
    omega
  rw [mbrtowc, if_pos rfl, if_neg (by omega), if_neg (by decide)]
  by_cases h : 0xc2 ≤ b.toNat ∧ b.toNat ≤ 0xf4
  · rw [if_pos h, if_neg (fun hgt => htest.mp hgt h)]
  · rw [if_neg h, if_pos (htest.mpr h)]

/-- **A call with more bytes.** -/
theorem mbrtowc_append (h : Valid c) (s t : List UInt8) :
    Extends s (mbrtowc true c (some s)) (mbrtowc true c (some (s ++ t)))
      fun st => (mbrtowc true st (some t)).shift s.length := by
  cases s with
  | nil =>
    refine ⟨nofun, nofun, fun st hst => ?_⟩
    cases hst
    exact ⟨(Decoded.shift_zero _).symm, h, fun hne => absurd rfl hne⟩
  | cons b s =>
    rcases h with rfl | ⟨lo, hi, k, acc, h⟩
    · by_cases hb : b.toNat < 0x80
      · have hrun : ∀ s, mbrtowc true 0#32 (some (b :: s)) = .char (if b ≠ 0 then 1 else 0) b.toNat 0 := by
          intro s
          rw [mbrtowc, if_pos hb]
          rfl
        rw [cons_append, hrun, hrun]
        refine ⟨fun ret wc st hd => ?_, nofun, nofun⟩
        cases hd
        refine ⟨rfl, rfl, ?_, cons_ne_nil b s⟩
        rw [length_cons]
        split <;> omega
      · rw [cons_append, mbrtowc_lead (by omega), mbrtowc_lead (by omega)]
        by_cases hlead : 0xc2 ≤ b.toNat ∧ b.toNat ≤ 0xf4
        · simp only [if_pos hlead]
          have hrest := resume_append (pending_bittab hlead.1 hlead.2) s t 1
          refine ⟨fun ret wc st hd => ?_, hrest.illegal, fun st hd => ?_⟩
          · obtain ⟨h1, h2, -, h4⟩ := hrest.char ret wc st hd
            rw [length_cons]
            exact ⟨h1, h2, by omega, cons_ne_nil b s⟩
          · obtain ⟨h1, lo, hi, k, acc, h2⟩ := hrest.incomplete st hd
            refine ⟨?_, Or.inr ⟨lo, hi, k, acc, h2⟩, fun _ => h2.ne_zero⟩
            rw [h1, mbrtowc_of_pending h2, ← resume_add, length_cons]
            congr 1
            omega
        · simp only [if_neg hlead]
          refine ⟨nofun, fun st hd => ?_, nofun⟩
          cases hd
          exact ⟨rfl, rfl⟩
    · rw [mbrtowc_of_pending h, mbrtowc_of_pending h]
      have hrest := resume_append h (b :: s) t 0
      refine ⟨fun ret wc st hd => ?_, hrest.illegal, fun st hd => ?_⟩
      · obtain ⟨h1, h2, -, h4⟩ := hrest.char ret wc st hd
        exact ⟨h1, h2, by omega, cons_ne_nil b s⟩
      · obtain ⟨h1, lo, hi, k, acc, h2⟩ := hrest.incomplete st hd
        refine ⟨?_, Or.inr ⟨lo, hi, k, acc, h2⟩, fun _ => h2.ne_zero⟩
        rw [h1, mbrtowc_of_pending h2, ← resume_add]

/-- The bytes of a character, some of which have been passed to an earlier call. -/
theorem max_ret_add {t : List UInt8} {ret : ℕ} {st st' : BitVec 32} (h : Valid c)
    (hs : mbrtowc true c (some s) = .incomplete st) (ht : mbrtowc true st (some t) = .char ret wc st') :
    max (ret + s.length) 1 = s.length + max ret 1 := by
  obtain ⟨-, hvalid, hne⟩ := (mbrtowc_append h s []).incomplete st hs
  rcases eq_nil_or_concat s with rfl | ⟨s', b, rfl⟩
  · simp
  · rcases hvalid with h0 | ⟨lo, hi, k, acc, hp⟩
    · exact absurd h0 (hne (by simp))
    · have := ret_pos hp ht
      omega

end Append

/-! ## The sequence of calls -/

/-- A buffer that is converted: the loop ends, at a state between calls. -/
theorem feedLoop_valid (h : Valid r.st) (hfuel : s.length < fuel) (hfuel' : s.length < fuel') :
    ∃ r', feedLoop fuel r s = some r' ∧ feedLoop fuel' r s = some r' ∧ Valid r'.st := by
  induction fuel generalizing fuel' r s with
  | zero => omega
  | succ fuel ih =>
    obtain ⟨fuel', rfl⟩ := Nat.exists_eq_succ_of_ne_zero (n := fuel') (by omega)
    have hext := mbrtowc_append h s []
    rw [feedLoop, feedLoop]
    cases hrun : mbrtowc true r.st (some s) with
    | char ret wc st =>
      obtain ⟨-, hst, hle, hne⟩ := hext.char ret wc st hrun
      have hpos := List.length_pos_iff.mpr hne
      have hdrop : (s.drop (max ret 1)).length < s.length := by
        rw [length_drop]
        omega
      exact ih (Or.inl hst) (by omega) (by omega)
    | incomplete st => exact ⟨_, rfl, rfl, (hext.incomplete st hrun).2.1⟩
    | illegal st => exact ⟨_, rfl, rfl, Or.inl (hext.illegal st hrun).2⟩

theorem feedLoop_fuel (h : Valid r.st)
    (hfuel : s.length < fuel) (hfuel' : s.length < fuel') : feedLoop fuel r s = feedLoop fuel' r s := by
  obtain ⟨r', h1, h2, -⟩ := feedLoop_valid h hfuel hfuel'
  rw [h1, h2]

theorem feedLoop_append {t : List UInt8} (h : Valid r.st)
    (hbad : r.bad = false) (hfuel : s.length < fuel) (hfuel' : (s ++ t).length < fuel') :
    feedLoop fuel' r (s ++ t) = (feedLoop fuel r s).bind fun r' => feed r' t := by
  induction fuel generalizing fuel' r s with
  | zero => omega
  | succ fuel ih =>
    obtain ⟨fuel', rfl⟩ := Nat.exists_eq_succ_of_ne_zero (n := fuel') (by omega)
    have hext := mbrtowc_append h s t
    rw [length_append] at hfuel'
    rw [feedLoop, feedLoop]
    cases hrun : mbrtowc true r.st (some s) with
    | char ret wc st =>
      obtain ⟨hlong, hst, hle, hne⟩ := hext.char ret wc st hrun
      have hpos := List.length_pos_iff.mpr hne
      have hdrop : (s ++ t).drop (max ret 1) = s.drop (max ret 1) ++ t :=
        drop_append_of_le_length (by omega)
      rw [hlong, hrun]
      simp only []
      rw [hdrop]
      refine ih (Or.inl hst) rfl ?_ ?_
      · rw [length_drop]
        omega
      · rw [length_append, length_drop]
        omega
    | illegal st =>
      rw [(hext.illegal st hrun).1, hrun]
      simp [feed]
    | incomplete st =>
      -- what the first call has left is continued by the first call of the second buffer
      obtain ⟨hlong, hst, hne⟩ := hext.incomplete st hrun
      have hext' := mbrtowc_append hst t []
      rw [hlong, Option.bind_some, feed, if_neg (by simp [hbad]), feedLoop]
      cases hrun' : mbrtowc true st (some t) with
      | char ret wc st' =>
        obtain ⟨-, hst', hle, hne'⟩ := hext'.char ret wc st' hrun'
        have hpos := List.length_pos_iff.mpr hne'
        have hmax := max_ret_add h hrun hrun'
        simp only [Decoded.shift]
        rw [hmax, ← Nat.add_assoc, ← drop_drop, drop_left]
        refine feedLoop_fuel (Or.inl hst') ?_ ?_
        · rw [length_drop]
          omega
        · rw [length_drop]
          omega
      | incomplete st' =>
        simp only [Decoded.shift, length_append, Nat.add_assoc]
      | illegal st' => rfl

/-- **The bytes in two buffers, and in one.** -/
theorem feed_append (h : Valid r.st) (s t : List UInt8) :
    feed r (s ++ t) = (feed r s).bind fun r' => feed r' t := by
  unfold feed
  by_cases hbad : r.bad = true
  · simp only [if_pos hbad, Option.bind_some]
  · rw [if_neg hbad, if_neg hbad,
      feedLoop_append h (Bool.eq_false_of_not_eq_true hbad) (Nat.lt_succ_self s.length) (Nat.lt_succ_self _)]
    rfl

theorem feed_valid (h : Valid r.st) (s : List UInt8) :
    ∃ r', feed r s = some r' ∧ Valid r'.st := by
  unfold feed
  split
  · exact ⟨r, rfl, h⟩
  · obtain ⟨r', hr, -, hv⟩ := feedLoop_valid h (Nat.lt_succ_self s.length) (Nat.lt_succ_self s.length)
    exact ⟨r', hr, hv⟩

theorem feedAll_eq (h : Valid r.st) (ss : List (List UInt8)) :
    feedAll r ss = feed r ss.flatten := by
  induction ss generalizing r with
  | nil =>
    rw [feed]
    split <;> rfl
  | cons s ss ih =>
    obtain ⟨r', hr, hv⟩ := feed_valid h s
    rw [feedAll, flatten_cons, feed_append h, hr, Option.bind_some, Option.bind_some, ih hv]

/-! ## Characters -/

theorem toNat_ofNat (h : n < 256) : (UInt8.ofNat n).toNat = n := by
  exact Nat.mod_eq_of_lt h

theorem char_bounds (ch : Char) : ch.toNat < 0xd800 ∨ 0xdfff < ch.toNat ∧ ch.toNat < 0x110000 := ch.valid

theorem exists_char (h : n < 0xd800 ∨ 0xdfff < n ∧ n < 0x110000) : ∃ ch : Char, ch.toNat = n :=
  ⟨Char.ofNatAux n h, rfl⟩

/-- A byte after the first one of a character, other than the second one. -/
def IsCont (b : UInt8) : Prop := 0x80 ≤ b.toNat ∧ b.toNat < 0xc0

/-- The second byte of a character after the first byte `b₀`. -/
def IsSecond (b₀ b : UInt8) : Prop := secondLo b₀.toNat ≤ b.toNat ∧ b.toNat < secondHi b₀.toNat

/-- The bytes of a character and its value, by the table of the Unicode standard. -/
inductive Sequence : List UInt8 → ℕ → Prop
  | one {b : UInt8} : b.toNat < 0x80 → Sequence [b] b.toNat
  | two {b₀ b₁ : UInt8} : 0xc2 ≤ b₀.toNat → b₀.toNat < 0xe0 → IsCont b₁ →
      Sequence [b₀, b₁] ((b₀.toNat - 0xc0) * 64 + (b₁.toNat - 0x80))
  | three {b₀ b₁ b₂ : UInt8} : 0xe0 ≤ b₀.toNat → b₀.toNat < 0xf0 → IsSecond b₀ b₁ → IsCont b₂ →
      Sequence [b₀, b₁, b₂] (((b₀.toNat - 0xe0) * 64 + (b₁.toNat - 0x80)) * 64 + (b₂.toNat - 0x80))
  | four {b₀ b₁ b₂ b₃ : UInt8} : 0xf0 ≤ b₀.toNat → b₀.toNat ≤ 0xf4 → IsSecond b₀ b₁ → IsCont b₂ → IsCont b₃ →
      Sequence [b₀, b₁, b₂, b₃] ((((b₀.toNat - 0xf0) * 64 + (b₁.toNat - 0x80)) * 64 + (b₂.toNat - 0x80)) * 64 +
        (b₃.toNat - 0x80))

section Resume

variable {c : BitVec 32} {lo hi k acc : ℕ} {s : List UInt8} {n ret wc : ℕ} {st : BitVec 32}

theorem resume_char_one (h : Pending c lo hi 1 acc) : resume c s n = .char ret wc st ↔
    ∃ b t, s = b :: t ∧ (lo ≤ b.toNat ∧ b.toNat < hi) ∧ ret = n + 1 ∧
      wc = acc * 64 + (b.toNat - 0x80) ∧ st = 0 := by
  cases s with
  | nil => exact iff_of_false nofun (by rintro ⟨_, _, h, _⟩; cases h)
  | cons b t =>
    rw [resume_cons h, if_pos rfl]
    constructor
    · intro hrun
      split at hrun
      · rename_i hb
        cases hrun
        exact ⟨b, t, rfl, hb, rfl, rfl, rfl⟩
      · cases hrun
    · rintro ⟨b', t', hs, hb, hret, hwc, hst⟩
      cases hs
      rw [if_pos hb, hret, hwc, hst]

theorem resume_char_succ (h : Pending c lo hi (k + 1) acc) (hk : 1 ≤ k) : resume c s n = .char ret wc st ↔
    ∃ b t, s = b :: t ∧ (lo ≤ b.toNat ∧ b.toNat < hi) ∧ resume (shiftIn c b) t (n + 1) = .char ret wc st := by
  cases s with
  | nil => exact iff_of_false nofun (by rintro ⟨_, _, h, _⟩; cases h)
  | cons b t =>
    rw [resume_cons h, if_neg (show ¬ k + 1 = 1 by omega)]
    constructor
    · intro hrun
      split at hrun
      · rename_i hb
        exact ⟨b, t, rfl, hb, hrun⟩
      · cases hrun
    · rintro ⟨b', t', hs, hb, hrun⟩
      cases hs
      rw [if_pos hb, hrun]

theorem resume_char_two (h : Pending c lo hi 2 acc) : resume c s n = .char ret wc st ↔
    ∃ b b' t, s = b :: b' :: t ∧ (lo ≤ b.toNat ∧ b.toNat < hi) ∧ IsCont b' ∧ ret = n + 2 ∧
      wc = (acc * 64 + (b.toNat - 0x80)) * 64 + (b'.toNat - 0x80) ∧ st = 0 := by
  have hcont := h.cont
  rw [resume_char_succ h (by decide)]
  constructor
  · rintro ⟨b, t, rfl, hb, hrun⟩
    obtain ⟨b', t', rfl, hb', hret, hwc, hst⟩ :=
      (resume_char_one (pending_shiftIn h (by decide) (by omega))).mp hrun
    exact ⟨b, b', t', rfl, hb, hb', hret, hwc, hst⟩
  · rintro ⟨b, b', t, rfl, hb, hb', hret, hwc, hst⟩
    exact ⟨b, b' :: t, rfl, hb, (resume_char_one (pending_shiftIn h (by decide) (by omega))).mpr
      ⟨b', t, rfl, hb', hret, hwc, hst⟩⟩

theorem resume_char_three (h : Pending c lo hi 3 acc) : resume c s n = .char ret wc st ↔
    ∃ b b' b'' t, s = b :: b' :: b'' :: t ∧ (lo ≤ b.toNat ∧ b.toNat < hi) ∧ IsCont b' ∧ IsCont b'' ∧
      ret = n + 3 ∧ wc = ((acc * 64 + (b.toNat - 0x80)) * 64 + (b'.toNat - 0x80)) * 64 + (b''.toNat - 0x80) ∧
      st = 0 := by
  have hcont := h.cont
  rw [resume_char_succ h (by decide)]
  constructor
  · rintro ⟨b, t, rfl, hb, hrun⟩
    obtain ⟨b', b'', t', rfl, hb', hb'', hret, hwc, hst⟩ :=
      (resume_char_two (pending_shiftIn h (by decide) (by omega))).mp hrun
    exact ⟨b, b', b'', t', rfl, hb, hb', hb'', hret, hwc, hst⟩
  · rintro ⟨b, b', b'', t, rfl, hb, hb', hb'', hret, hwc, hst⟩
    exact ⟨b, b' :: b'' :: t, rfl, hb, (resume_char_two (pending_shiftIn h (by decide) (by omega))).mpr
      ⟨b', b'', t, rfl, hb', hb'', hret, hwc, hst⟩⟩

end Resume

/-- The bytes of a scalar value. -/
def encode (v : ℕ) : List UInt8 :=
  if v ≤ 127 then [UInt8.ofNat v]
  else if v ≤ 2047 then [UInt8.ofNat (v / 64 % 32 + 192), UInt8.ofNat (v % 64 + 128)]
  else if v ≤ 65535 then
    [UInt8.ofNat (v / 4096 % 16 + 224), UInt8.ofNat (v / 64 % 64 + 128), UInt8.ofNat (v % 64 + 128)]
  else
    [UInt8.ofNat (v / 262144 % 8 + 240), UInt8.ofNat (v / 4096 % 64 + 128), UInt8.ofNat (v / 64 % 64 + 128),
      UInt8.ofNat (v % 64 + 128)]

theorem utf8EncodeChar_eq (ch : Char) : String.utf8EncodeChar ch = encode ch.toNat := rfl

section Encode

variable {v : ℕ}

theorem encode_one (h : v ≤ 127) : encode v = [UInt8.ofNat v] := if_pos h

theorem encode_two (h1 : 127 < v) (h2 : v ≤ 2047) :
    encode v = [UInt8.ofNat (v / 64 % 32 + 192), UInt8.ofNat (v % 64 + 128)] := by
  rw [encode, if_neg (by omega), if_pos h2]

theorem encode_three (h1 : 2047 < v) (h2 : v ≤ 65535) :
    encode v = [UInt8.ofNat (v / 4096 % 16 + 224), UInt8.ofNat (v / 64 % 64 + 128),
      UInt8.ofNat (v % 64 + 128)] := by
  rw [encode, if_neg (by omega), if_neg (by omega), if_pos h2]

theorem encode_four (h1 : 65535 < v) :
    encode v = [UInt8.ofNat (v / 262144 % 8 + 240), UInt8.ofNat (v / 4096 % 64 + 128),
      UInt8.ofNat (v / 64 % 64 + 128), UInt8.ofNat (v % 64 + 128)] := by
  rw [encode, if_neg (by omega), if_neg (by omega), if_neg (by omega)]

end Encode

section Lead

variable {b : ℕ}

theorem pending_two (h1 : 0xc2 ≤ b) (h2 : b < 0xe0) :
    Pending (bittab.getD (b - 0xc2) 0) 0x80 0xc0 1 (b - 0xc0) := by
  have h := pending_bittab h1 (by omega)
  unfold secondLo secondHi following leadBits at h
  rwa [if_neg (by omega), if_neg (by omega), if_neg (by omega), if_neg (by omega), if_pos h2, if_pos h2] at h

theorem pending_three (h1 : 0xe0 ≤ b) (h2 : b < 0xf0) :
    Pending (bittab.getD (b - 0xc2) 0) (secondLo b) (secondHi b) 2 (b - 0xe0) := by
  have h := pending_bittab (b := b) (by omega) (by omega)
  unfold following leadBits at h
  rwa [if_neg (by omega), if_pos h2, if_neg (by omega), if_pos h2] at h

theorem pending_four (h1 : 0xf0 ≤ b) (h2 : b ≤ 0xf4) :
    Pending (bittab.getD (b - 0xc2) 0) (secondLo b) (secondHi b) 3 (b - 0xf0) := by
  have h := pending_bittab (b := b) (by omega) (by omega)
  unfold following leadBits at h
  rwa [if_neg (by omega), if_neg (by omega), if_neg (by omega), if_neg (by omega)] at h

end Lead

/-- The characters that are decoded are those of the table. -/
theorem sequence_of_mbrtowc {ret : ℕ} {st : BitVec 32} (h : mbrtowc true 0#32 (some s) = .char ret wc st) :
    ∃ bs t, s = bs ++ t ∧ Sequence bs wc ∧ max ret 1 = bs.length ∧ st = 0#32 := by
  cases s with
  | nil => cases h
  | cons b s =>
    rcases Nat.lt_or_ge b.toNat 0x80 with hb | hb
    · rw [mbrtowc, if_pos hb] at h
      cases h
      refine ⟨[b], s, rfl, Sequence.one hb, ?_, rfl⟩
      split <;> rfl
    · rw [mbrtowc_lead hb] at h
      split at h
      · rename_i hlead
        rcases Nat.lt_or_ge b.toNat 0xe0 with h1 | h1
        · obtain ⟨b1, t, rfl, hb1, hret, hwc, hst⟩ := (resume_char_one (pending_two hlead.1 h1)).mp h
          exact ⟨[b, b1], t, rfl, hwc ▸ Sequence.two hlead.1 h1 hb1, by rw [hret]; rfl, hst⟩
        rcases Nat.lt_or_ge b.toNat 0xf0 with h2 | h2
        · obtain ⟨b1, b2, t, rfl, hb1, hb2, hret, hwc, hst⟩ := (resume_char_two (pending_three h1 h2)).mp h
          exact ⟨[b, b1, b2], t, rfl, hwc ▸ Sequence.three h1 h2 hb1 hb2, by rw [hret]; rfl, hst⟩
        · obtain ⟨b1, b2, b3, t, rfl, hb1, hb2, hb3, hret, hwc, hst⟩ :=
            (resume_char_three (pending_four h2 hlead.2)).mp h
          exact ⟨[b, b1, b2, b3], t, rfl, hwc ▸ Sequence.four h2 hlead.2 hb1 hb2 hb3, by rw [hret]; rfl, hst⟩
      · cases h

theorem mbrtowc_of_sequence {bs : List UInt8} (h : Sequence bs wc) (t : List UInt8) :
    ∃ ret, mbrtowc true 0#32 (some (bs ++ t)) = .char ret wc 0 ∧ max ret 1 = bs.length := by
  cases h with
  | @one b hb =>
    refine ⟨if b ≠ 0 then 1 else 0, ?_, by split <;> rfl⟩
    rw [singleton_append, mbrtowc, if_pos hb]
    rfl
  | @two b0 b1 h1 h2 hb1 =>
    refine ⟨2, ?_, rfl⟩
    rw [cons_append, mbrtowc_lead (by omega), if_pos (by omega)]
    exact (resume_char_one (pending_two h1 h2)).mpr ⟨b1, t, rfl, hb1, rfl, rfl, rfl⟩
  | @three b0 b1 b2 h1 h2 hb1 hb2 =>
    refine ⟨3, ?_, rfl⟩
    rw [cons_append, mbrtowc_lead (by omega), if_pos (by omega)]
    exact (resume_char_two (pending_three h1 h2)).mpr ⟨b1, b2, t, rfl, hb1, hb2, rfl, rfl, rfl⟩
  | @four b0 b1 b2 b3 h1 h2 hb1 hb2 hb3 =>
    refine ⟨4, ?_, rfl⟩
    rw [cons_append, mbrtowc_lead (by omega), if_pos (by omega)]
    exact (resume_char_three (pending_four h1 h2)).mpr ⟨b1, b2, b3, t, rfl, hb1, hb2, hb3, rfl, rfl, rfl⟩

theorem ofNat_eq (h : n = b.toNat) : UInt8.ofNat n = b := by
  rw [h, UInt8.ofNat_toNat]

theorem isSecond_iff {b0 : UInt8} : IsSecond b0 b ↔ IsCont b ∧ (b0.toNat = 0xe0 → 0xa0 ≤ b.toNat) ∧
    (b0.toNat = 0xf0 → 0x90 ≤ b.toNat) ∧ (b0.toNat = 0xed → b.toNat < 0xa0) ∧
    (b0.toNat = 0xf4 → b.toNat < 0x90) := by
  unfold IsSecond IsCont secondLo secondHi
  split <;> split <;> (try split) <;> (try split) <;> omega

/-- The sequences of the table are the encodings of the scalar values. -/
theorem Sequence.encode_eq {bs : List UInt8} {v : ℕ} (h : Sequence bs v) :
    (v < 0xd800 ∨ 0xdfff < v ∧ v < 0x110000) ∧ bs = encode v := by
  cases h with
  | @one b hb =>
    refine ⟨by omega, ?_⟩
    rw [encode_one (by omega), ofNat_eq rfl]
  | @two b0 b1 h1 h2 hb1 =>
    unfold IsCont at hb1
    refine ⟨by omega, ?_⟩
    rw [encode_two (by omega) (by omega), ofNat_eq (b := b0) (by omega), ofNat_eq (b := b1) (by omega)]
  | @three b0 b1 b2 h1 h2 hb1 hb2 =>
    rw [isSecond_iff] at hb1
    unfold IsCont at hb1 hb2
    refine ⟨by omega, ?_⟩
    rw [encode_three (by omega) (by omega), ofNat_eq (b := b0) (by omega), ofNat_eq (b := b1) (by omega),
      ofNat_eq (b := b2) (by omega)]
  | @four b0 b1 b2 b3 h1 h2 hb1 hb2 hb3 =>
    rw [isSecond_iff] at hb1
    unfold IsCont at hb1 hb2 hb3
    refine ⟨by omega, ?_⟩
    rw [encode_four (by omega), ofNat_eq (b := b0) (by omega), ofNat_eq (b := b1) (by omega),
      ofNat_eq (b := b2) (by omega), ofNat_eq (b := b3) (by omega)]

theorem sequence_encode {v : ℕ} (hv : v < 0xd800 ∨ 0xdfff < v ∧ v < 0x110000) : Sequence (encode v) v := by
  rcases Nat.lt_or_ge 127 v with h1 | h1
  · have hb1 : (UInt8.ofNat (v % 64 + 128)).toNat = v % 64 + 128 := toNat_ofNat (by omega)
    have hb2 : (UInt8.ofNat (v / 64 % 64 + 128)).toNat = v / 64 % 64 + 128 := toNat_ofNat (by omega)
    rcases Nat.lt_or_ge 2047 v with h2 | h2
    · rcases Nat.lt_or_ge 65535 v with h3 | h3
      · have hb3 : (UInt8.ofNat (v / 4096 % 64 + 128)).toNat = v / 4096 % 64 + 128 := toNat_ofNat (by omega)
        have hb0 : (UInt8.ofNat (v / 262144 % 8 + 240)).toNat = v / 262144 % 8 + 240 := toNat_ofNat (by omega)
        have h := @Sequence.four (UInt8.ofNat (v / 262144 % 8 + 240))
          (UInt8.ofNat (v / 4096 % 64 + 128)) (UInt8.ofNat (v / 64 % 64 + 128))
          (UInt8.ofNat (v % 64 + 128)) (by omega) (by omega)
          (isSecond_iff.mpr (by unfold IsCont; omega)) (by unfold IsCont; omega) (by unfold IsCont; omega)
        rw [encode_four h3]
        convert h using 1
        omega
      · have hb0 : (UInt8.ofNat (v / 4096 % 16 + 224)).toNat = v / 4096 % 16 + 224 := toNat_ofNat (by omega)
        have h := @Sequence.three (UInt8.ofNat (v / 4096 % 16 + 224))
          (UInt8.ofNat (v / 64 % 64 + 128)) (UInt8.ofNat (v % 64 + 128)) (by omega) (by omega)
          (isSecond_iff.mpr (by unfold IsCont; omega)) (by unfold IsCont; omega)
        rw [encode_three h2 h3]
        convert h using 1
        omega
    · have hb0 : (UInt8.ofNat (v / 64 % 32 + 192)).toNat = v / 64 % 32 + 192 := toNat_ofNat (by omega)
      have h := @Sequence.two (UInt8.ofNat (v / 64 % 32 + 192)) (UInt8.ofNat (v % 64 + 128))
        (by omega) (by omega) (by unfold IsCont; omega)
      rw [encode_two h1 h2]
      convert h using 1
      omega
  · have hb : (UInt8.ofNat v).toNat = v := toNat_ofNat (by omega)
    have h := Sequence.one (b := UInt8.ofNat v) (by omega)
    rw [encode_one h1]
    rwa [hb] at h

/-! ## Encoding -/

/-- A byte that is put together from the bits of a mark and a number below it. -/
theorem lowByte_or {m x : BitVec 32} (i a : ℕ) (hm : m.toNat = 2 ^ i * a) (hx : x.toNat < 2 ^ i)
    (hn : n = m.toNat + x.toNat) (hlt : n < 256) : lowByte (m ||| x) = UInt8.ofNat n := by
  have hor : (m ||| x).toNat = n := by
    rw [BitVec.toNat_or, hm, ← Nat.two_pow_add_eq_or_of_lt hx, ← hm, hn]
  apply UInt8.toNat_inj.mp
  rw [toNat_ofNat hlt]
  show ((m ||| x).setWidth 8).toNat = n
  rw [BitVec.toNat_setWidth, hor]
  exact Nat.mod_eq_of_lt hlt

theorem toNat_and_63 (x : BitVec 32) : (x &&& 0x3f#32).toNat = x.toNat % 64 := by
  exact Nat.and_two_pow_sub_one_eq_mod x.toNat 6

theorem lowByte_cont (x : BitVec 32) : lowByte (0x80#32 ||| x &&& 0x3f#32) = UInt8.ofNat (x.toNat % 64 + 128) := by
  have h := toNat_and_63 x
  refine lowByte_or 6 2 rfl (by omega) ?_ (by omega)
  rw [h, Nat.add_comm]
  rfl

/-- **The bytes of a scalar value**, and nothing else, are stored. -/
theorem wcrtomb_eq (wc : BitVec 32) : wcrtomb true wc =
    if wc.toNat < 0xd800 ∨ 0xdfff < wc.toNat ∧ wc.toNat < 0x110000 then some (encode wc.toNat) else none := by
  have hsub : wc - 0xe000#32 < 0x2000#32 ↔ 0xe000 ≤ wc.toNat ∧ wc.toNat < 0x10000 := by
    rw [BitVec.lt_def, BitVec.toNat_sub]
    simp only [BitVec.toNat_ofNat]
    omega
  have hsub' : wc - 0x10000#32 < 0x100000#32 ↔ 0x10000 ≤ wc.toNat ∧ wc.toNat < 0x110000 := by
    rw [BitVec.lt_def, BitVec.toNat_sub]
    simp only [BitVec.toNat_ofNat]
    omega
  have hshift : ∀ n, (wc >>> n).toNat = wc.toNat / 2 ^ n := by
    intro n
    rw [BitVec.toNat_ushiftRight, Nat.shiftRight_eq_div_pow]
  have h1 : wc < 0x80#32 ↔ wc.toNat < 0x80 := BitVec.lt_def
  have h2 : wc < 0x800#32 ↔ wc.toNat < 0x800 := BitVec.lt_def
  have h3 : wc < 0xd800#32 ↔ wc.toNat < 0xd800 := BitVec.lt_def
  unfold wcrtomb
  rw [if_neg (show ¬ ((!true) = true) by decide)]
  simp only [h1, h2, h3, hsub, hsub']
  by_cases hv1 : wc.toNat < 0x80
  · rw [if_pos hv1, if_pos (by omega), encode_one (by omega)]
    refine congrArg some (List.singleton_inj.mpr (UInt8.toNat_inj.mp ?_))
    rw [toNat_ofNat (by omega)]
    exact (BitVec.toNat_setWidth ..).trans (Nat.mod_eq_of_lt (by omega))
  rw [if_neg hv1]
  by_cases hv2 : wc.toNat < 0x800
  · have hlead : lowByte (0xc0#32 ||| wc >>> 6) = UInt8.ofNat (wc.toNat / 64 % 32 + 192) := by
      refine lowByte_or 6 3 rfl ?_ ?_ (by omega)
      · rw [hshift]
        omega
      · rw [hshift]
        simp only [BitVec.toNat_ofNat]
        omega
    rw [if_pos hv2, if_pos (by omega), encode_two (by omega) (by omega), hlead, lowByte_cont]
  rw [if_neg hv2]
  by_cases hv3 : wc.toNat < 0xd800 ∨ 0xe000 ≤ wc.toNat ∧ wc.toNat < 0x10000
  · have hlead : lowByte (0xe0#32 ||| wc >>> 12) = UInt8.ofNat (wc.toNat / 4096 % 16 + 224) := by
      refine lowByte_or 5 7 rfl ?_ ?_ (by omega)
      · rw [hshift]
        omega
      · rw [hshift]
        simp only [BitVec.toNat_ofNat]
        omega
    rw [if_pos hv3, if_pos (by omega), encode_three (by omega) (by omega), hlead, lowByte_cont, lowByte_cont,
      hshift]
    rfl
  rw [if_neg hv3]
  by_cases hv4 : 0x10000 ≤ wc.toNat ∧ wc.toNat < 0x110000
  · have hlead : lowByte (0xf0#32 ||| wc >>> 18) = UInt8.ofNat (wc.toNat / 262144 % 8 + 240) := by
      refine lowByte_or 4 15 rfl ?_ ?_ (by omega)
      · rw [hshift]
        omega
      · rw [hshift]
        simp only [BitVec.toNat_ofNat]
        omega
    rw [if_pos hv4, if_pos (by omega), encode_four (by omega), hlead, lowByte_cont, lowByte_cont, lowByte_cont,
      hshift, hshift]
    rfl
  rw [if_neg hv4, if_neg (by omega)]

/-! ## The codec -/

theorem feedLoop_encode (cs : List Char) (hst : r.st = 0#32) (hbad : r.bad = false)
    (hfuel : (cs.flatMap String.utf8EncodeChar).length < fuel) :
    ∃ r', feedLoop fuel r (cs.flatMap String.utf8EncodeChar) = some r' ∧ r'.bad = false ∧ r'.st = 0#32 ∧
      r'.chars = r.chars ++ cs.map Char.toNat := by
  induction cs generalizing fuel r with
  | nil =>
    rcases fuel with _ | fuel
    · omega
    exact ⟨_, rfl, hbad, hst, by simp⟩
  | cons ch cs ih =>
    rcases fuel with _ | fuel
    · omega
    rw [flatMap_cons, utf8EncodeChar_eq] at hfuel ⊢
    obtain ⟨ret, hrun, hret⟩ :=
      mbrtowc_of_sequence (sequence_encode (char_bounds ch)) (cs.flatMap String.utf8EncodeChar)
    rw [length_append] at hfuel
    rw [feedLoop, hst, hrun]
    simp only []
    rw [hret, drop_left]
    obtain ⟨r', hr', hb, hs, hc⟩ := ih (r := ⟨r.chars ++ [ch.toNat], r.pos + (encode ch.toNat).length,
      r.pos + (encode ch.toNat).length, 0, false⟩) rfl rfl
      (show (cs.flatMap String.utf8EncodeChar).length < fuel by omega)
    exact ⟨r', hr', hb, hs, by rw [hc, map_cons, append_assoc, singleton_append]⟩

/-- What is decoded to its end is made of the encodings of characters. -/
theorem encode_of_feedLoop {r' : Reader} (hst : r.st = 0#32)
    (hrun : feedLoop fuel r s = some r') (hbad : r'.bad = false) (hst' : r'.st = 0#32) :
    ∃ cs : List Char, s = cs.flatMap String.utf8EncodeChar := by
  induction fuel generalizing r s with
  | zero => cases hrun
  | succ fuel ih =>
    rw [feedLoop, hst] at hrun
    cases hcall : mbrtowc true 0#32 (some s) with
    | char ret wc st =>
      obtain ⟨bs, t, rfl, hseq, hret, rfl⟩ := sequence_of_mbrtowc hcall
      rw [hcall] at hrun
      simp only [] at hrun
      rw [hret, drop_left] at hrun
      obtain ⟨cs, rfl⟩ := ih rfl hrun
      obtain ⟨hwc, rfl⟩ := hseq.encode_eq
      obtain ⟨ch, rfl⟩ := exists_char hwc
      exact ⟨ch :: cs, rfl⟩
    | incomplete st =>
      have hne := ((mbrtowc_append (Or.inl rfl) s []).incomplete st hcall).2.2
      rw [hcall] at hrun
      cases hrun
      refine ⟨[], ?_⟩
      by_contra hs
      exact hne hs hst'
    | illegal st =>
      rw [hcall] at hrun
      cases hrun
      cases hbad

/-- **The UTF-8 codec.** In whatever pieces the bytes are passed to `mbrtowc`, the characters, the failure and
its place, and the state at the end are those of one buffer; the bytes that are accepted are the encodings of
the sequences of Unicode scalar values, and they are decoded to these; and `wcrtomb` encodes every scalar value
so that it is decoded again, and rejects every other value. -/
theorem utf8_codec :
    (∀ ss : List (List UInt8), ∃ r, feedAll Reader.init ss = some r ∧ feed Reader.init ss.flatten = some r) ∧
    (∀ s : List UInt8, (∃ r, feed Reader.init s = some r ∧ r.bad = false ∧ r.st = 0#32) ↔
      ∃ cs : List Char, s = cs.flatMap String.utf8EncodeChar) ∧
    (∀ cs : List Char, ∃ r, feed Reader.init (cs.flatMap String.utf8EncodeChar) = some r ∧
      r.chars = cs.map Char.toNat) ∧
    (∀ ch : Char, ∃ bs ret, wcrtomb true (BitVec.ofNat 32 ch.toNat) = some bs ∧
      mbrtowc true 0#32 (some bs) = .char ret ch.toNat 0#32 ∧ max ret 1 = bs.length) ∧
    ∀ wc : BitVec 32, (∀ ch : Char, wc.toNat ≠ ch.toNat) → wcrtomb true wc = none := by
  refine ⟨fun ss => ?_, fun s => ⟨?_, ?_⟩, fun cs => ?_, fun ch => ?_, fun wc hwc => ?_⟩
  · obtain ⟨r, hr, -⟩ := feed_valid (r := Reader.init) (Or.inl rfl) ss.flatten
    exact ⟨r, (feedAll_eq (Or.inl rfl) ss).trans hr, hr⟩
  · rintro ⟨r, hr, hbad, hst⟩
    exact encode_of_feedLoop rfl hr hbad hst
  · rintro ⟨cs, rfl⟩
    obtain ⟨r, hr, hbad, hst, -⟩ := feedLoop_encode cs (r := Reader.init) rfl rfl (Nat.lt_succ_self _)
    exact ⟨r, hr, hbad, hst⟩
  · obtain ⟨r, hr, -, -, hc⟩ := feedLoop_encode cs (r := Reader.init) rfl rfl (Nat.lt_succ_self _)
    exact ⟨r, hr, hc⟩
  · have hch := char_bounds ch
    have hnat : (BitVec.ofNat 32 ch.toNat).toNat = ch.toNat := by
      exact Nat.mod_eq_of_lt (by omega)
    obtain ⟨ret, hrun, hret⟩ := mbrtowc_of_sequence (sequence_encode hch) []
    rw [append_nil] at hrun
    refine ⟨encode ch.toNat, ret, ?_, hrun, hret⟩
    rw [wcrtomb_eq, hnat, if_pos hch]
  · rw [wcrtomb_eq]
    refine if_neg fun h => ?_
    obtain ⟨ch, hch⟩ := exists_char h
    exact hwc ch hch.symm

end Leblibc.Multibyte

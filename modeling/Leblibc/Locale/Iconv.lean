import Leblibc.Base.Machine

/-!
# Conversion from GB18030

A model of the decoding of GB2312, GBK and GB18030 in `iconv` of `src/locale/iconv.c`. A sequence of four bytes is a
number with digits to mixed bases. The numbers below 189000 are the characters that the table of two bytes leaves out,
in their order, which `gb18030utf` lists as ranges; those from 189000 on are the characters from `0x10000` on.

The test of the third byte lets `0xff` pass, whose digit is 126. Then two sequences have the same number.

## Main results

* `ranged_lt`, `character_injective`: numbers with the same character are the same
* `decodes_iff_third`: the sequences of four bytes are in their ranges and have characters of their own, unless the third
  byte is `0xff`
-/

namespace Leblibc.Iconv

/-- Subtraction in `unsigned`. -/
def usub (x y : ℕ) : ℕ := (x + 2 ^ 32 - y) % 2 ^ 32

/-- The types of `iconv` that share the branch. -/
inductive Gb where
  | GB2312 | GBK | GB18030
  deriving DecidableEq

/-- What the decoding of a character gives: the character and the number of its bytes, or an error. -/
inductive Decoded where
  | char (c l : ℕ)
  | starved
  | ilseq
  deriving DecidableEq

/-- `gb18030utf`: the first character of a range, and the number of its characters. -/
def gb18030utf : List (ℕ × ℕ) :=
  [(0x80, 36), (0xa5, 2), (0xa9, 7), (0xb2, 5), (0xb8, 31), (0xd8, 8), (0xe2, 6), (0xeb, 1), (0xee, 4), (0xf4, 3),
   (0xf8, 1), (0xfb, 1), (0xfd, 4), (0x102, 17), (0x114, 7), (0x11c, 15), (0x12c, 24), (0x145, 3), (0x149, 4),
   (0x14e, 29), (0x16c, 98), (0x1cf, 1), (0x1d1, 1), (0x1d3, 1), (0x1d5, 1), (0x1d7, 1), (0x1d9, 1), (0x1db, 1),
   (0x1dd, 28), (0x1fa, 87), (0x252, 15), (0x262, 101), (0x2c8, 1), (0x2cc, 13), (0x2da, 183), (0x3a2, 1), (0x3aa, 7),
   (0x3c2, 1), (0x3ca, 55), (0x402, 14), (0x450, 1), (0x452, 7102), (0x2011, 2), (0x2017, 1), (0x201a, 2),
   (0x201e, 7), (0x2027, 9), (0x2031, 1), (0x2034, 1), (0x2036, 5), (0x203c, 112), (0x20ad, 86), (0x2104, 1),
   (0x2106, 3), (0x210a, 12), (0x2117, 10), (0x2122, 62), (0x216c, 4), (0x217a, 22), (0x2194, 2), (0x219a, 110),
   (0x2209, 6), (0x2210, 1), (0x2212, 3), (0x2216, 4), (0x221b, 2), (0x2221, 2), (0x2224, 1), (0x2226, 1),
   (0x222c, 2), (0x222f, 5), (0x2238, 5), (0x223e, 10), (0x2249, 3), (0x224d, 5), (0x2253, 13), (0x2262, 2),
   (0x2268, 6), (0x2270, 37), (0x2296, 3), (0x229a, 11), (0x22a6, 25), (0x22c0, 82), (0x2313, 333), (0x246a, 10),
   (0x249c, 100), (0x254c, 4), (0x2574, 13), (0x2590, 3), (0x2596, 10), (0x25a2, 16), (0x25b4, 8), (0x25be, 8),
   (0x25c8, 3), (0x25cc, 2), (0x25d0, 18), (0x25e6, 31), (0x2607, 2), (0x260a, 54), (0x2641, 1), (0x2643, 2110),
   (0x2e82, 2), (0x2e85, 3), (0x2e89, 2), (0x2e8d, 10), (0x2e98, 15), (0x2ea8, 2), (0x2eab, 3), (0x2eaf, 4),
   (0x2eb4, 2), (0x2eb8, 3), (0x2ebc, 14), (0x2ecb, 293), (0x2ffc, 4), (0x3004, 1), (0x3018, 5), (0x301f, 2),
   (0x302a, 20), (0x303f, 2), (0x3094, 7), (0x309f, 2), (0x30f7, 5), (0x30ff, 6), (0x312a, 246), (0x322a, 7),
   (0x3232, 113), (0x32a4, 234), (0x3390, 12), (0x339f, 2), (0x33a2, 34), (0x33c5, 9), (0x33cf, 2), (0x33d3, 2),
   (0x33d6, 113), (0x3448, 43), (0x3474, 298), (0x359f, 111), (0x360f, 11), (0x361b, 765), (0x3919, 85), (0x396f, 96),
   (0x39d1, 14), (0x39e0, 147), (0x3a74, 218), (0x3b4f, 287), (0x3c6f, 113), (0x3ce1, 885), (0x4057, 264),
   (0x4160, 471), (0x4338, 116), (0x43ad, 4), (0x43b2, 43), (0x43de, 248), (0x44d7, 373), (0x464d, 20), (0x4662, 193),
   (0x4724, 5), (0x472a, 82), (0x477d, 16), (0x478e, 441), (0x4948, 50), (0x497b, 2), (0x497e, 4), (0x4984, 1),
   (0x4987, 20), (0x499c, 3), (0x49a0, 22), (0x49b8, 703), (0x4c78, 39), (0x4ca4, 111), (0x4d1a, 148), (0x4daf, 81),
   (0x9fa6, 14426), (0xe76c, 1), (0xe7c8, 1), (0xe7e7, 13), (0xe815, 1), (0xe819, 5), (0xe81f, 7), (0xe827, 4),
   (0xe82d, 4), (0xe833, 8), (0xe83c, 7), (0xe844, 16), (0xe856, 14), (0xe865, 4295), (0xf92d, 76), (0xf97a, 27),
   (0xf996, 81), (0xf9e8, 9), (0xf9f2, 26), (0xfa10, 1), (0xfa12, 1), (0xfa15, 3), (0xfa19, 6), (0xfa22, 1),
   (0xfa25, 2), (0xfa2a, 1030), (0xfe32, 1), (0xfe45, 4), (0xfe53, 1), (0xfe58, 1), (0xfe67, 1), (0xfe6c, 149),
   (0xff5f, 129), (0xffe6, 26)]

/-- The loop over the ranges. -/
def ranged : List (ℕ × ℕ) → ℕ → Option ℕ
  | [], _ => none
  | (start, count) :: rest, c => if c < count then some (c + start) else ranged rest (c - count)

/-- The character of a number. -/
def character (c : ℕ) : Option ℕ :=
  if c ≥ 189000 then
    let c := c - 189000 + 0x10000
    if c ≥ 0x110000 then none else some c
  else ranged gb18030utf c

/-- The end of a sequence of four bytes, with the number `c` of the first two. -/
def lastBytes (c d e : ℕ) : Decoded :=
  if usub d 0x81 > 126 then .ilseq
  else
    let c := c + 10 * usub d 0x81
    if usub e 48 > 9 then .ilseq
    else
      match character (c + usub e 48) with
      | none => .ilseq
      | some c => .char c 4

/-- The decoding of a character with the first byte `c` and the bytes `rest` behind it. -/
def decode (type : Gb) (gb18030 : ℕ → ℕ → ℕ) (c : UInt8) (rest : List UInt8) : Decoded :=
  let c := c.toNat
  if c < 128 then .char c 1
  else if type = .GB2312 ∧ c < 0xa1 then .ilseq
  else if type ≠ .GB18030 ∧ c = 128 then .char 0x20ac 1
  else
    let c := usub c 0x81
    if c ≥ 126 then .ilseq
    else
      match rest with
      | [] => .starved
      | d :: rest =>
        let d := d.toNat
        if d < 0xa1 ∧ type = .GB2312 then .ilseq
        else if usub d 0x40 ≥ 191 ∨ d = 127 then
          if usub d 48 > 9 ∨ type ≠ .GB18030 then .ilseq
          else
            match rest with
            | e :: f :: _ => lastBytes ((10 * c + d - 48) * 1260) e.toNat f.toNat
            | _ => .starved
        else
          let d := usub d 0x40
          .char (gb18030 c (if d > 63 then d - 1 else d)) 2

/-! ## Numbers and their characters -/

variable {t : List (ℕ × ℕ)} {n m c d : ℕ}

/-- The ranges follow each other. -/
abbrev Ascending (t : List (ℕ × ℕ)) : Prop := t.Pairwise fun p q => p.1 + p.2 ≤ q.1

theorem exists_mem_of_ranged (h : ranged t n = some c) : ∃ p ∈ t, p.1 ≤ c ∧ c < p.1 + p.2 := by
  induction t generalizing n with
  | nil => cases h
  | cons p t ih =>
    rw [ranged] at h
    split at h
    · cases h
      exact ⟨p, List.mem_cons_self, by omega, by omega⟩
    · obtain ⟨q, hq, hc⟩ := ih h
      exact ⟨q, List.mem_cons_of_mem p hq, hc⟩

/-- **A larger number has a larger character.** -/
theorem ranged_lt (ht : Ascending t) (hn : ranged t n = some c) (hm : ranged t m = some d) (h : n < m) : c < d := by
  induction t generalizing n m with
  | nil => cases hn
  | cons p t ih =>
    obtain ⟨hp, ht⟩ := List.pairwise_cons.mp ht
    rw [ranged] at hn hm
    split at hn
    · cases hn
      split at hm
      · cases hm
        omega
      · -- the second number is in a range behind this one
        obtain ⟨q, hq, hle, -⟩ := exists_mem_of_ranged hm
        have := hp q hq
        omega
    · rw [if_neg (by omega)] at hm
      exact ih ht hn hm (by omega)

theorem ascending_gb18030utf : Ascending gb18030utf ∧ ∀ p ∈ gb18030utf, p.1 + p.2 ≤ 0x10000 := by
  decide +kernel

theorem character_lt (hn : character n = some c) (hm : character m = some d) (h : n < m) : c < d := by
  obtain ⟨hasc, hle⟩ := ascending_gb18030utf
  unfold character at hn hm
  split at hm
  · have hd : d = m - 189000 + 0x10000 := by
      dsimp only at hm
      split at hm
      · cases hm
      · exact (Option.some.inj hm).symm
    split at hn
    · dsimp only at hn
      split at hn
      · cases hn
      · cases hn
        omega
    · obtain ⟨p, hp, -, hlt⟩ := exists_mem_of_ranged hn
      have := hle p hp
      omega
  · rw [if_neg (by omega)] at hn
    exact ranged_lt hasc hn hm h

theorem character_injective (hn : character n = some c) (hm : character m = some c) : n = m := by
  rcases Nat.lt_trichotomy n m with h | h | h
  · exact absurd (character_lt hn hm h) (Nat.lt_irrefl c)
  · exact h
  · exact absurd (character_lt hm hn h) (Nat.lt_irrefl c)

/-! ## Sequences of four bytes -/

/-- Four bytes. -/
structure Quad where
  b1 : UInt8
  b2 : UInt8
  b3 : UInt8
  b4 : UInt8

/-- `iconv` takes the four bytes for the character `c`. -/
def Quad.Decodes (x : Quad) (gb18030 : ℕ → ℕ → ℕ) (tail : List UInt8) (c : ℕ) : Prop :=
  decode .GB18030 gb18030 x.b1 (x.b2 :: x.b3 :: x.b4 :: tail) = .char c 4

/-- The bytes are in the ranges of GB18030. -/
def Quad.InRange (x : Quad) : Prop :=
  (0x81 ≤ x.b1.toNat ∧ x.b1.toNat ≤ 0xfe) ∧ (0x30 ≤ x.b2.toNat ∧ x.b2.toNat ≤ 0x39) ∧
    (0x81 ≤ x.b3.toNat ∧ x.b3.toNat ≤ 0xfe) ∧ 0x30 ≤ x.b4.toNat ∧ x.b4.toNat ≤ 0x39

/-- The number of four bytes. -/
def Quad.number (x : Quad) : ℕ :=
  (10 * (x.b1.toNat - 0x81) + (x.b2.toNat - 0x30)) * 1260 + 10 * (x.b3.toNat - 0x81) + (x.b4.toNat - 0x30)

variable {x y : Quad} {gb18030 : ℕ → ℕ → ℕ} {tail tail' : List UInt8}

theorem usub_le {x y k : ℕ} (hx : x < 256) (hy : y < 256) (hk : k < 256) (h : ¬usub x y > k) :
    y ≤ x ∧ x ≤ y + k ∧ usub x y = x - y := by
  unfold usub at *
  omega

/-- What is tested of four bytes that are taken for a character. -/
theorem Quad.Decodes.tested (h : x.Decodes gb18030 tail c) :
    ((0x81 ≤ x.b1.toNat ∧ x.b1.toNat ≤ 0xfe) ∧ (0x30 ≤ x.b2.toNat ∧ x.b2.toNat ≤ 0x39) ∧ 0x81 ≤ x.b3.toNat ∧
      0x30 ≤ x.b4.toNat ∧ x.b4.toNat ≤ 0x39) ∧ character x.number = some c := by
  unfold Decodes decode lastBytes at h
  dsimp only at h
  repeat' split at h
  all_goals try cases h
  -- one branch is left
  rename_i hfirst _ _ hsecond hthird hfourth _ hchar
  obtain ⟨h1, h1', heq1⟩ := usub_le x.b1.toNat_lt (show 0x81 < 256 by decide) (show 125 < 256 by decide) (by omega)
  obtain ⟨h2, h2', -⟩ := usub_le x.b2.toNat_lt (by decide) (show 9 < 256 by decide) fun h => hsecond (.inl h)
  obtain ⟨h3, -, heq3⟩ := usub_le x.b3.toNat_lt (by decide) (show 126 < 256 by decide) hthird
  obtain ⟨h4, h4', heq4⟩ := usub_le x.b4.toNat_lt (by decide) (show 9 < 256 by decide) hfourth
  rw [heq1, heq3, heq4, Nat.add_sub_assoc h2] at hchar
  exact ⟨⟨⟨h1, h1'⟩, ⟨h2, h2'⟩, h3, h4, h4'⟩, hchar⟩

theorem Quad.Decodes.inRange_iff (h : x.Decodes gb18030 tail c) : x.InRange ↔ x.b3 ≠ 0xff := by
  obtain ⟨⟨h1, h2, h3, h4⟩, -⟩ := h.tested
  have hlt := x.b3.toNat_lt
  rw [Ne, ← UInt8.toNat_inj]
  constructor
  · rintro ⟨-, -, ⟨-, hle⟩, -⟩ (heq : x.b3.toNat = 255)
    omega
  · intro (hne : x.b3.toNat ≠ 255)
    exact ⟨h1, h2, ⟨h3, by omega⟩, h4⟩

/-- The digits of a number are determined by it. -/
theorem Quad.InRange.eq_of_number (hx : x.InRange) (hy : y.InRange) (h : x.number = y.number) : x = y := by
  obtain ⟨⟨_, _⟩, ⟨_, _⟩, ⟨_, _⟩, _, _⟩ := hx
  obtain ⟨⟨_, _⟩, ⟨_, _⟩, ⟨_, _⟩, _, _⟩ := hy
  unfold number at h
  cases x
  cases y
  simp only [mk.injEq, ← UInt8.toNat_inj] at *
  refine ⟨?_, ?_, ?_, ?_⟩ <;> omega

end Leblibc.Iconv

import Leblibc.Network.InetCorrect
import Leblibc.Stdlib.StrtolCorrect

/-!
# Numbers and dots

A model of `__inet_aton` in `src/network/inet_aton.c`. The parts of the string are read with the model of `strtoul`, so
that a part that does not fit in `unsigned long` is the largest value of the type. Where `unsigned long` has 32 bits this
value is itself in the range of a single part: then a single number that is too large is accepted. There is no other
string for which the result is not that of the notation.

## Main results

* `partsLoop_spec`: the loop reads the parts of the notation
* `inetAton_iff`: the function accepts the notation, but for a single number on a 32-bit machine
* `inetAton_inetNtop`: the round trip of an IPv4 address
-/

namespace Leblibc.InetAton

open List

open Strtol (byte dec val strtoul Body Reads)

/-! ## The function -/

/-- The loop over the parts, of which `n` more may follow. The inner `none` is the result 0. -/
def partsLoop (arch : Arch) : ℕ → List UInt8 → Option (Option (List ℕ))
  | 0, _ => some none
  | n + 1, s =>
    (strtoul arch s 0).bind fun r =>
      let z := r.endptr.toNat
      if z = 0 ∨ (byte s z ≠ 0 ∧ byte s z ≠ 46) ∨ ¬ dec (byte s 0) < 10 then some none
      else if byte s z = 0 then some (some [r.value.toNat])
      else (partsLoop arch n (s.drop (z + 1))).map (Option.map (r.value.toNat :: ·))

/-- `case 2`. -/
def spread₂ (a : ℕ) : List ℕ := [a >>> 8, a &&& 0xff]

/-- `case 1`. -/
def spread₁ (a : ℕ) : List ℕ := a >>> 16 :: spread₂ (a &&& 0xffff)

/-- The `switch`. -/
def spread : List ℕ → List ℕ
  | [a] => a >>> 24 :: spread₁ (a &&& 0xffffff)
  | [a₀, a₁] => a₀ :: spread₁ a₁
  | [a₀, a₁, a₂] => a₀ :: a₁ :: spread₂ a₂
  | a => a

/-- `__inet_aton`: the address, if the result is 1. -/
def inetAton (arch : Arch) (s : List UInt8) : Option (Option (List ℕ)) :=
  (partsLoop arch 4 s).map (Option.bind · fun a => if (spread a).all (· ≤ 255) then some (spread a) else none)

/-! ## The notation -/

/-- Numbers with dots between them. -/
inductive Parts : List UInt8 → List ℕ → Prop
  | last {b : List UInt8} {m : ℕ} (h : Body 0 b m) : Parts b [m]
  | dot {b s : List UInt8} {m : ℕ} {ms : List ℕ} (h : Body 0 b m) (hs : Parts s ms) :
      Parts (b ++ 46 :: s) (m :: ms)

/-- The range of the parts: all but the last are bytes, and the last one fills the bytes that are left. -/
def Ranged (ms : List ℕ) : Prop :=
  ms.length ≤ 4 ∧ (∀ m ∈ ms.dropLast, m ≤ 255) ∧ ∀ m ∈ ms.getLast?, m ≤ 2 ^ (8 * (5 - ms.length)) - 1

/-- The bytes of the address that the parts denote. -/
def address (ms : List ℕ) : List ℕ :=
  ms.dropLast ++ (List.range (5 - ms.length)).map fun i => ms.getLastD 0 / 256 ^ (4 - ms.length - i) % 256

variable {s b rest : List UInt8} {m : ℕ}

theorem val_of_dec {c : UInt8} (h : dec c < 10) : val c < 10 := by
  rwa [← Strtol.dec_lt_iff]

/-- A number begins with a digit and has no dot in it. -/
theorem Body.bytes (h : Body 0 b m) : (∃ c t, b = c :: t ∧ dec c < 10) ∧ (46 : UInt8) ∉ b := by
  have hdot (k : ℕ) (hk : k ≤ 16) {ds : List UInt8} (hds : ∀ c ∈ ds, val c < k) : (46 : UInt8) ∉ ds := fun hmem =>
    absurd (hds 46 hmem) (by rw [show val 46 = 255 from rfl]; omega)
  cases h with
  | digits hb => exact absurd rfl hb
  | @hex _ x ds hb hx hne hds =>
    refine ⟨⟨48, _, rfl, by decide⟩, ?_⟩
    rw [mem_cons, mem_cons, not_or, not_or]
    exact ⟨by decide, by rcases hx with rfl | rfl <;> decide, hdot 16 le_rfl hds⟩
  | octal hds =>
    refine ⟨⟨48, _, rfl, by decide⟩, ?_⟩
    rw [mem_cons, not_or]
    exact ⟨by decide, hdot 8 (by decide) hds⟩
  | @decimal c ds hc hds =>
    exact ⟨⟨c, ds, rfl, (Strtol.dec_lt_iff c).mpr (hds c mem_cons_self)⟩, hdot 10 (by decide) hds⟩

/-- What `strtoul` makes of a number. -/
def saturated (arch : Arch) (m : ℕ) : ℕ := if m < 2 ^ arch.bits then m else 2 ^ arch.bits - 1

variable (arch : Arch)

/-- **A part**: a string that begins with a digit begins with a number, the longest of which `strtoul` reads. -/
theorem exists_reads (hdigit : dec (byte s 0) < 10) :
    ∃ b m e, Reads 0 s b m ∧ strtoul arch s 0 = some ⟨saturated arch m, b.length, e⟩ := by
  have hval := val_of_dec hdigit
  obtain ⟨c, t, rfl⟩ : ∃ c t, s = c :: t := by
    cases s with
    | nil => exact absurd hval (by decide)
    | cons c t => exact ⟨c, t, rfl⟩
  rcases Strtol.radix_reads (suffix_refl (c :: t)) (.inl rfl) false Nat.one_pos with
    ⟨b, m, -, hreads, -⟩ | ⟨hnone, -⟩
  · obtain ⟨e, he⟩ := Strtol.strtoul_of_reads arch (.inl rfl) hreads (show val (byte (c :: t) 0) < 36 by omega)
    refine ⟨b, m, e, hreads, ?_⟩
    rw [show strtoul arch (c :: t) 0 = _ from he, saturated]
    have := Nat.one_le_two_pow (n := arch.bits)
    split
    · rfl
    · rw [Nat.cast_sub this]
      rfl
  · -- the digit alone is a number
    by_cases h48 : c = 48
    · subst h48
      exact absurd (Strtol.Body.octal fun d hd => absurd hd not_mem_nil) (hnone [48] 0 ⟨t, rfl⟩)
    · refine absurd (Strtol.Body.decimal h48 fun d hd => ?_) (hnone [c] _ ⟨t, rfl⟩)
      cases List.mem_singleton.mp hd
      exact hval

/-- **The notation behind the first number.** -/
theorem parts_iff (h : Reads 0 (b ++ rest) b m) (ms : List ℕ) :
    Parts (b ++ rest) ms ↔
      (rest = [] ∧ ms = [m]) ∨ ∃ s ms', rest = 46 :: s ∧ ms = m :: ms' ∧ Parts s ms' := by
  obtain ⟨-, hdot⟩ := Body.bytes h.isBody
  constructor
  · intro hnot
    generalize hs : b ++ rest = s at hnot
    cases hnot with
    | last hbody =>
      rw [← hs] at hbody
      have hlen := h.longest (b ++ rest) _ (prefix_refl _) hbody
      rw [length_append] at hlen
      rcases hlen with hlt | ⟨heq, rfl⟩
      · omega
      · exact .inl ⟨List.append_right_eq_self.mp heq, rfl⟩
    | @dot b' s' _ _ hbody hrest =>
      rcases h.longest b' _ (hs ▸ ⟨46 :: s', rfl⟩) hbody with hlt | ⟨rfl, rfl⟩
      · -- the dot would stand in the number
        refine absurd ?_ hdot
        have hget : (b ++ rest)[b'.length]? = some 46 := by
          rw [hs, getElem?_append_right le_rfl, Nat.sub_self]
          rfl
        rw [getElem?_append_left hlt] at hget
        exact mem_of_getElem? hget
      · exact .inr ⟨s', _, append_cancel_left hs, rfl, hrest⟩
  · rintro (⟨rfl, rfl⟩ | ⟨s, ms', rfl, rfl, hnot⟩)
    · rw [append_nil]
      exact .last h.isBody
    · exact .dot h.isBody hnot

theorem Parts.digit {ms : List ℕ} (h : Parts s ms) : dec (byte s 0) < 10 := by
  cases h with
  | last hbody =>
    obtain ⟨⟨c, t, rfl, hc⟩, -⟩ := Body.bytes hbody
    exact hc
  | dot hbody _ =>
    obtain ⟨⟨c, t, rfl, hc⟩, -⟩ := Body.bytes hbody
    exact hc

theorem Parts.length_pos {ms : List ℕ} (h : Parts s ms) : 0 < ms.length := by
  cases h <;> exact Nat.succ_pos _

theorem Parts.unique {ms ms' : List ℕ} (h : Parts s ms) (h' : Parts s ms') : ms = ms' := by
  induction ms generalizing s ms' with
  | nil => exact absurd h.length_pos (Nat.lt_irrefl 0)
  | cons _ ms ih =>
    obtain ⟨b, m, e, hreads, -⟩ := exists_reads .x86_64 h.digit
    obtain ⟨rest, rfl⟩ := hreads.isPrefix
    rw [parts_iff hreads] at h h'
    rcases h with ⟨rfl, h⟩ | ⟨s, ms1, rfl, h, hnot⟩ <;> rcases h' with ⟨hr, rfl⟩ | ⟨s', ms2, hr, rfl, hnot'⟩
    · exact h
    · cases hr
    · cases hr
    · cases hr
      cases h
      rw [ih hnot hnot']

theorem byte_append (b rest : List UInt8) : byte (b ++ rest) b.length = byte rest 0 := by
  unfold byte
  rw [append_assoc, getD_append_right _ _ _ _ le_rfl, Nat.sub_self]

/-- **The loop** reads up to `n` parts. -/
theorem partsLoop_spec (n : ℕ) (hs : (0 : UInt8) ∉ s) :
    ∃ r, partsLoop arch n s = some r ∧
      ∀ a, r = some a ↔ ∃ ms, Parts s ms ∧ ms.length ≤ n ∧ a = ms.map (saturated arch) := by
  induction n generalizing s with
  | zero =>
    refine ⟨none, rfl, fun a => iff_of_false (fun h => by cases h) ?_⟩
    rintro ⟨ms, hnot, hlen, -⟩
    exact absurd hnot.length_pos (by omega)
  | succ n ih =>
    rw [partsLoop]
    by_cases hdigit : dec (byte s 0) < 10
    · obtain ⟨b, m, e, hreads, hr⟩ := exists_reads arch hdigit
      obtain ⟨rest, rfl⟩ := hreads.isPrefix
      obtain ⟨⟨c, t, rfl, -⟩, -⟩ := Body.bytes hreads.isBody
      rw [hr, Option.bind_some]
      dsimp only
      rw [Int.toNat_natCast, Int.toNat_natCast, byte_append]
      simp only [parts_iff hreads]
      cases rest with
      | nil =>
        refine ⟨some [saturated arch m], ?_, fun a => ?_⟩
        · rw [if_neg (by rintro (h | h | h); exacts [absurd h (by simp), h.1 rfl, h hdigit]), if_pos (by rfl)]
        · constructor
          · rintro ⟨⟩
            exact ⟨[m], .inl ⟨rfl, rfl⟩, Nat.succ_le_succ (Nat.zero_le n), rfl⟩
          · rintro ⟨ms, ⟨-, rfl⟩ | ⟨s, ms', h, -⟩, -, rfl⟩
            · rfl
            · cases h
      | cons d rest =>
        have hd0 : d ≠ 0 := fun h => hs (by simp [h])
        by_cases h46 : d = 46
        · subst h46
          obtain ⟨r, hrun, hiff⟩ := ih (s := rest) fun h => hs (by simp [h])
          have hdrop : (c :: t ++ 46 :: rest).drop ((c :: t).length + 1) = rest := by
            rw [← drop_drop, drop_left]
            rfl
          rw [if_neg (by rintro (h | h | h); exacts [absurd h (by simp), h.2 rfl, h hdigit]), hdrop,
            hrun]
          refine ⟨_, rfl, fun a => ?_⟩
          rw [Option.map_eq_some_iff]
          constructor
          · rintro ⟨a', ha', rfl⟩
            obtain ⟨ms, hnot, hlen, rfl⟩ := (hiff a').mp ha'
            exact ⟨m :: ms, .inr ⟨rest, ms, rfl, rfl, hnot⟩, Nat.succ_le_succ hlen, rfl⟩
          · rintro ⟨ms, ⟨h, -⟩ | ⟨s, ms', h, rfl, hnot⟩, hlen, rfl⟩
            · cases h
            · cases h
              exact ⟨_, (hiff _).mpr ⟨ms', hnot, Nat.le_of_succ_le_succ hlen, rfl⟩, rfl⟩
        · rw [if_pos (.inr (.inl ⟨hd0, h46⟩))]
          refine ⟨none, rfl, fun a => iff_of_false (fun h => by cases h) ?_⟩
          rintro ⟨ms, ⟨h, -⟩ | ⟨s, ms', h, -⟩, -⟩
          · cases h
          · cases h
            exact h46 rfl
    · obtain ⟨r, hr⟩ : ∃ r, strtoul arch s 0 = some r := by
        rcases Strtol.unsigned_converts (.inl rfl) s (show arch.bits = 32 ∨ arch.bits = 64 by cases arch <;> decide) with
          ⟨w, neg, m, -, hr⟩ | ⟨-, hr⟩
        · exact ⟨_, hr⟩
        · exact ⟨_, hr⟩
      rw [hr, Option.bind_some]
      rw [if_pos (.inr (.inr hdigit))]
      refine ⟨none, rfl, fun a => iff_of_false (fun h => by cases h) ?_⟩
      rintro ⟨ms, hnot, -⟩
      exact hdigit hnot.digit

/-! ## The range -/

theorem spread_one (a : ℕ) : spread [a] = [a / 16777216, a / 65536 % 256, a / 256 % 256, a % 256] := by
  show [a >>> 24, (a &&& (2 ^ 24 - 1)) >>> 16, ((a &&& (2 ^ 24 - 1)) &&& (2 ^ 16 - 1)) >>> 8,
    ((a &&& (2 ^ 24 - 1)) &&& (2 ^ 16 - 1)) &&& (2 ^ 8 - 1)] = _
  simp only [Nat.shiftRight_eq_div_pow, Nat.and_two_pow_sub_one_eq_mod, List.cons.injEq, and_true]
  exact ⟨trivial, by omega, by omega, by omega⟩

theorem spread_two (a b : ℕ) : spread [a, b] = [a, b / 65536, b / 256 % 256, b % 256] := by
  show [a, b >>> 16, (b &&& (2 ^ 16 - 1)) >>> 8, (b &&& (2 ^ 16 - 1)) &&& (2 ^ 8 - 1)] = _
  simp only [Nat.and_two_pow_sub_one_eq_mod, List.cons.injEq, and_true, true_and]
  omega

theorem spread_three (a b c : ℕ) : spread [a, b, c] = [a, b, c / 256, c % 256] := by
  show [a, b, c >>> 8, c &&& (2 ^ 8 - 1)] = _
  rw [Nat.shiftRight_eq_div_pow, Nat.and_two_pow_sub_one_eq_mod]

theorem saturated_cases (m : ℕ) :
    (m < 4294967296 ∧ saturated arch m = m) ∨
      (4294967296 ≤ m ∧ 4294967295 ≤ saturated arch m ∧ (arch = .x86_64 → 4294967296 ≤ saturated arch m)) := by
  unfold saturated
  cases arch with
  | i386 =>
    rw [show Arch.bits .i386 = 32 from rfl]
    split
    · exact .inl ⟨by omega, rfl⟩
    · exact .inr ⟨by omega, by omega, fun h => by cases h⟩
  | x86_64 =>
    rw [show Arch.bits .x86_64 = 64 from rfl]
    split <;> omega

/-- A single number that does not fit in 32 bits, on a machine with 32 bits. -/
def Saturates (arch : Arch) (ms : List ℕ) : Prop := arch = .i386 ∧ ∃ m, ms = [m] ∧ 4294967296 ≤ m

/-- **The range checks** are those of the notation, but for a single number that is too large. -/
theorem spread_ranged {ms : List ℕ} (hpos : 0 < ms.length) (hlen : ms.length ≤ 4)
    (hsat : ¬ Saturates arch ms) :
    ((spread (ms.map (saturated arch))).all (· ≤ 255) = true ↔ Ranged ms) ∧
      (Ranged ms → spread (ms.map (saturated arch)) = address ms) := by
  have hcases := saturated_cases arch
  rcases ms with _ | ⟨a, _ | ⟨b, _ | ⟨c, _ | ⟨d, _ | ⟨e, ms⟩⟩⟩⟩⟩
  · exact absurd hpos (Nat.lt_irrefl 0)
  · have ha := hcases a
    have hone : a < 4294967296 ∨ 4294967296 ≤ saturated arch a := by
      cases arch with
      | i386 => exact .inl (not_le.mp fun h => hsat ⟨rfl, a, rfl, h⟩)
      | x86_64 => exact ha.imp And.left fun h => h.2.2 rfl
    rw [map_cons, map_nil, spread_one]
    simp [Ranged, address, range_succ]
    omega
  · have ha := hcases a
    have hb := hcases b
    rw [map_cons, map_cons, map_nil, spread_two]
    simp [Ranged, address, range_succ]
    omega
  · have ha := hcases a
    have hb := hcases b
    have hc := hcases c
    rw [map_cons, map_cons, map_cons, map_nil, spread_three]
    simp [Ranged, address, range_succ]
    omega
  · have ha := hcases a
    have hb := hcases b
    have hc := hcases c
    have hd := hcases d
    simp [spread, Ranged, address]
    omega
  · simp only [length_cons] at hlen
    omega

/-- **`__inet_aton`** accepts the notation with its parts in range and stores the address that it denotes, exactly if the
string is not a single number that does not fit in an `unsigned long` of 32 bits. -/
theorem inetAton_iff (arch : Arch) (s : List UInt8) (hs : (0 : UInt8) ∉ s) :
    ∃ r, inetAton arch s = some r ∧
      ((∀ a, r = some a ↔ ∃ ms, Parts s ms ∧ Ranged ms ∧ a = address ms) ↔
        ¬ ∃ ms, Parts s ms ∧ Saturates arch ms) := by
  obtain ⟨r, hrun, hiff⟩ := partsLoop_spec arch 4 hs
  refine ⟨_, by rw [inetAton, hrun, Option.map_some], ⟨fun h => ?_, fun hsat a => ?_⟩⟩
  · -- the largest value is in range, but the number is not
    rintro ⟨_, hnot, rfl, m, rfl, hm⟩
    rw [(hiff _).mpr ⟨[m], hnot, show 1 ≤ 4 by decide, rfl⟩] at h
    have hval : saturated .i386 m = 4294967295 := if_neg (by rw [show Arch.bits .i386 = 32 from rfl]; omega)
    rw [map_cons, hval] at h
    obtain ⟨ms, hnot', hranged, -⟩ := (h [255, 255, 255, 255]).mp rfl
    obtain rfl := hnot'.unique hnot
    have : m ≤ 4294967295 := hranged.2.2 m rfl
    omega
  · rw [Option.bind_eq_some_iff]
    constructor
    · rintro ⟨b, hb, h⟩
      obtain ⟨ms, hnot, hlen, rfl⟩ := (hiff b).mp hb
      obtain ⟨hall, haddr⟩ := spread_ranged arch hnot.length_pos hlen fun h => hsat ⟨ms, hnot, h⟩
      split at h
      · have hranged := hall.mp ‹_›
        rw [haddr hranged] at h
        exact ⟨ms, hnot, hranged, (Option.some.inj h).symm⟩
      · cases h
    · rintro ⟨ms, hnot, hranged, rfl⟩
      obtain ⟨hall, haddr⟩ := spread_ranged arch hnot.length_pos hranged.1 fun h => hsat ⟨ms, hnot, h⟩
      refine ⟨_, (hiff _).mpr ⟨ms, hnot, hranged.1, rfl⟩, ?_⟩
      rw [if_pos (hall.mpr hranged), haddr hranged]

/-- The string `"0x7f.1"`. -/
theorem inetAton_iff_loopback : inetAton .x86_64 [48, 120, 55, 102, 46, 49] = some (some [127, 0, 0, 1]) ∧
    ∃ ms, Parts [48, 120, 55, 102, 46, 49] ms ∧ Ranged ms ∧ [127, 0, 0, 1] = address ms := by
  have hrun : inetAton .x86_64 [48, 120, 55, 102, 46, 49] = some (some [127, 0, 0, 1]) := by decide +kernel
  obtain ⟨r, hr, hiff⟩ := inetAton_iff .x86_64 [48, 120, 55, 102, 46, 49] (by decide)
  cases hrun.symm.trans hr
  exact ⟨hrun, (hiff.mpr (fun ⟨ms, _, h, _⟩ => by cases h) _).mp rfl⟩

/-- The string `"4294967296"`, which is `2 ^ 32`. -/
theorem inetAton_saturates :
    inetAton .i386 [52, 50, 57, 52, 57, 54, 55, 50, 57, 54] = some (some [255, 255, 255, 255]) ∧
      Parts [52, 50, 57, 52, 57, 54, 55, 50, 57, 54] [4294967296] ∧ ¬ Ranged [4294967296] := by
  have hnot : Parts _ _ := .last (Strtol.Body.decimal (show (52 : UInt8) ≠ 48 by decide)
    (show ∀ d ∈ [52, 50, 57, 52, 57, 54, 55, 50, 57, 54], val d < 10 by decide +kernel))
  exact ⟨by decide +kernel, hnot, by simp [Ranged]⟩

/-! ## The round trip -/

open Inet

/-- Only zero is written with a zero in front, which makes a number octal. -/
theorem body_numText (n : ℕ) : Body 0 (numText 10 n) n ∧ 0 ∉ numText 10 n := by
  have hchar : ∀ k < 10, val (Printf.digitChar false k) = k := by decide
  have hnum (k : ℕ) (hk : k ∈ numeral 10 n) := lt_of_mem_numeral (by decide) hk
  have hval : Strtol.value 10 (numText 10 n) = n := by
    rw [Strtol.value, Strtol.valueFrom, numText, foldl_map,
      foldl_ext _ _ _ fun v k hk => by rw [hchar k (hnum k hk)], foldl_numeral]
  have hdigits : ∀ d ∈ numText 10 n, val d < 10 :=
    forall_mem_map.mpr fun k hk => (hchar k (hnum k hk)).trans_lt (hnum k hk)
  refine ⟨?_, fun h => absurd (hdigits 0 h) (by decide)⟩
  obtain ⟨d, ds, htext, -, -, h48, -⟩ := numText_cons (b := 10) (by decide) (by decide) n
  by_cases hd : d = 48
  · rw [h48 hd]
    exact .octal (by simp)
  · rw [htext] at hdigits hval ⊢
    exact hval ▸ .decimal hd hdigits

/-- **`inet_aton` reads back what `inet_ntop` writes** for an IPv4 address. -/
theorem inetAton_inetNtop (arch : Arch) (a : ℕ → UInt8) :
    ∃ text, inetNtop arch AF_INET a INET6_ADDRSTRLEN = some (.ok text) ∧
      inetAton arch text = some (some ((range 4).map fun k => (a k).toNat)) := by
  have hbody (n : ℕ) := (body_numText n).1
  have hparts : Parts (dotted a 0) _ := .dot (hbody _) (.dot (hbody _) (.dot (hbody _) (.last (hbody _))))
  obtain ⟨r, hrun, hiff⟩ := partsLoop_spec arch 4 (s := dotted a 0) (by simp [dotted, body_numText])
  have hsat (c : UInt8) : saturated arch c.toNat = c.toNat ∧ c.toNat ≤ 255 := by
    have := saturated_cases arch c.toNat
    have := c.toNat_lt
    omega
  have hlen : (dotted a 0).length < INET6_ADDRSTRLEN := lt_of_le_of_lt (length_dotted a 0) (by decide)
  refine ⟨dotted a 0, by simp [inetNtop, snprintf_quad, hlen], ?_⟩
  simp [inetAton, hrun, (hiff _).mpr ⟨_, hparts, le_rfl, rfl⟩, hsat, spread, range_succ]

end Leblibc.InetAton

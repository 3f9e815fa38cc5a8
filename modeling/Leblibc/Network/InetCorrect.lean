import Leblibc.Lib.Separated
import Leblibc.Stdio.PrintfCorrect
import Leblibc.Network.Inet

/-!
# Texts of network addresses: the round trip

`inet_pton` reads back what `inet_ntop` writes. The loop over the printed text looks only at whether groups are zero,
so that it can be run on eight booleans: for each of the 256 patterns it stops at the first of the longest runs of
zero groups, if there is one of two groups or more, and its span is what has to go. The loop that reads groups then
has the groups before the two colons at the front of the array and those behind at its end.

## Main results

* `scan_colons`: the loop over the printed text finds the span that the loop on groups finds
* `groupScan_good`: the loop on groups finds the first of the longest runs
* `pton6Loop_terminated`: groups are read one by one into the array
* `inetPton_inetNtop`: the round trip, and the form of the text
-/

namespace Leblibc.Inet

open List

open Printf

/-! ## Numbers in texts -/

/-- The digits of a number, of which zero has one. -/
def numeral (b n : ℕ) : List ℕ := if n = 0 then [0] else (Nat.digits b n).reverse

/-- A number as `%x` and `%d` write it. -/
def numText (b n : ℕ) : List UInt8 := (numeral b n).map (digitChar false)

theorem numeral_ne_nil (b n : ℕ) : numeral b n ≠ [] := by
  unfold numeral
  split
  · simp
  · rename_i h
    simpa [Nat.digits_eq_nil_iff_eq_zero] using h

variable {b n d k : ℕ} {s : List UInt8} {g : ℕ} {gs gs' : List ℕ} {t : List UInt8} {i : ℕ} {a : ℕ → UInt8}

theorem lt_of_mem_numeral (hb : 1 < b) (h : d ∈ numeral b n) : d < b := by
  unfold numeral at h
  split at h
  · rw [mem_singleton] at h
    omega
  · exact Nat.digits_lt_base hb (List.mem_reverse.mp h)

theorem foldl_numeral (b n : ℕ) : (numeral b n).foldl (fun v d => b * v + d) 0 = n := by
  unfold numeral
  split
  · rename_i h
    simp [h]
  · have h := Nat.ofDigits_digits b n
    rw [Nat.ofDigits_eq_foldr] at h
    simpa [Nat.add_comm] using h

theorem length_numeral_le (hb : 1 < b) (hk : k ≠ 0) (h : n < b ^ k) : (numeral b n).length ≤ k := by
  unfold numeral
  split
  · exact Nat.one_le_iff_ne_zero.mpr hk
  · rw [length_reverse]
    exact (Nat.digits_length_le_iff hb n).mpr h

/-- A number other than zero does not begin with a zero. -/
theorem head_numeral_ne (hn : n ≠ 0) : (numeral b n).head? ≠ some 0 := by
  rw [numeral, if_neg hn, head?_reverse, getLast?_eq_getLast_of_ne_nil (Nat.digits_ne_nil_iff_ne_zero.mpr hn)]
  exact fun h => Nat.getLast_digit_ne_zero b hn (Option.some.inj h)

/-- A text behind which a loop over digits stops. -/
def Stops (val : UInt8 → Option ℕ) (s : List UInt8) : Prop := ∀ c ∈ s.head?, val c = none

theorem stops_nil (val : UInt8 → Option ℕ) : Stops val [] := by
  rintro c ⟨⟩

theorem stops_cons {val : UInt8 → Option ℕ} {c : UInt8} (h : val c = none) : Stops val (c :: s) := by
  rintro _ ⟨rfl⟩
  exact h

/-- **The loop over digits** reads the digits, up to a byte that is none. -/
theorem digitLoop_eq {val : UInt8 → Option ℕ} (b : ℕ) (hs : Stops val s) :
    ∀ (ds : List ℕ) (k v : ℕ), (∀ d ∈ ds, val (digitChar false d) = some d) → ds.length ≤ k →
      digitLoop val b k v (ds.map (digitChar false) ++ s) = (ds.foldl (fun v d => b * v + d) v, ds.length)
  | [], 0, v, _, _ => rfl
  | [], k + 1, v, _, _ => by
    cases s with
    | nil => rfl
    | cons c s =>
      have hc : val c = none := hs c rfl
      simp [digitLoop, hc]
  | d :: ds, 0, v, _, h => absurd h (by simp)
  | d :: ds, k + 1, v, hval, h => by
    have hd := hval d mem_cons_self
    have ih := digitLoop_eq b hs ds k (b * v + d) (fun d' hd' => hval d' (mem_cons_of_mem _ hd'))
      (Nat.le_of_succ_le_succ h)
    simp [digitLoop, hd, ih]

theorem hexval_digitChar (hd : d < 16) : hexval (digitChar false d) = some d := by
  interval_cases d <;> rfl

theorem decval_digitChar (hd : d < 10) : decval (digitChar false d) = some d := by
  interval_cases d <;> rfl

/-- The digits of a number in one base are read, in whichever base. -/
theorem digitLoop_numText {val : UInt8 → Option ℕ} (hb : 1 < b) (hval : ∀ d < b, val (digitChar false d) = some d)
    (hk : k ≠ 0) (hn : n < b ^ k) (hs : Stops val s) (b' : ℕ) :
    digitLoop val b' k 0 (numText b n ++ s) =
      ((numeral b n).foldl (fun v d => b' * v + d) 0, (numText b n).length) := by
  rw [numText, length_map]
  exact digitLoop_eq b' hs _ k 0 (fun d hd => hval d (lt_of_mem_numeral hb hd)) (length_numeral_le hb hk hn)

theorem hexLoop_numText (hg : g < 65536) (hs : Stops hexval s) :
    digitLoop hexval 16 4 0 (numText 16 g ++ s) = (g, (numText 16 g).length) := by
  rw [digitLoop_numText (by decide) (fun d => hexval_digitChar) (by decide) hg hs, foldl_numeral]

variable (c : UInt8)

theorem decLoop_numText (hs : Stops decval s) :
    digitLoop decval 10 3 0 (numText 10 c.toNat ++ s) = (c.toNat, (numText 10 c.toNat).length) := by
  rw [digitLoop_numText (by decide) (fun d => decval_digitChar) (by decide) (lt_trans c.toNat_lt (by decide)) hs,
    foldl_numeral]

/-! ## What is printed -/

/-- The conversion of a number by `%x` or `%d`. -/
def numDirective (c : Conv) (n : ℕ) : Directive :=
  ⟨[], .digits [], .absent, .none, c, n, ⟨by simp, by decide⟩, trivial⟩

def numPiece (c : Conv) (n : ℕ) : Piece := .conv (numDirective c n)

def colonPiece : Piece := .literal 58 (by decide)

def dotPiece : Piece := .literal 46 (by decide)

variable (arch : Arch)

theorem render_colonPiece : colonPiece.render arch = [58] := rfl

theorem render_dotPiece : dotPiece.render arch = [46] := rfl

theorem render_numPiece {c : Conv} (hc : c = .x ∨ c = .d) (hn : n < 65536) :
    (numPiece c n).render arch = numText c.base n := by
  have hvalue : (numDirective c n).value arch = n := by
    apply Directive.value_of_inRange arch
    rcases hc with rfl | rfl <;> cases arch <;>
      simp [numDirective, Ty.InRange, Len.ty, Conv.signed, Ty.signed, Ty.bits] <;> omega
  have hdigits : ∀ upper : Bool, upper = false →
      replicate (1 - (digitsOf c.base upper n).length) 48 ++ digitsOf c.base upper n = numText c.base n := by
    rintro _ rfl
    unfold numText numeral digitsOf
    split
    · rename_i h0
      simp [h0, digitChar]
    · rename_i h0
      have hpos : 0 < (Nat.digits c.base n).length :=
        List.length_pos_iff.mpr (Nat.digits_ne_nil_iff_ne_zero.mpr h0)
      rw [length_reverse, length_map, Nat.sub_eq_zero_of_le hpos, replicate_zero, nil_append,
        map_reverse]
  have hrender : (numPiece c n).render arch =
      Spec.render ⟨false, false, false, false, false, 0, none⟩ c (n : ℤ) := by
    rw [← hvalue]
    rfl
  rw [hrender]
  rcases hc with rfl | rfl
  · have := hdigits false rfl
    simpa [Spec.render, Spec.sign, Spec.digits] using this
  · have hpos : ¬(n : ℤ) < 0 := by omega
    have := hdigits false rfl
    simpa [Spec.render, Spec.sign, Spec.digits, hpos] using this

theorem snprintf_eq {arch : Arch} {size : ℕ} {ps : List Piece} (h : renderOf arch ps = t) (hlen : t.length < size)
    (hsize : size ≤ 100) : snprintf arch size (textOf ps) (argsOf ps) = some (t.length, t) := by
  subst h
  have h := printfLoop_ends arch ((textOf ps).length + 1) ps 0 0 [] (Nat.lt_succ_self _)
  rw [Nat.zero_add, nil_append, Ends, if_pos (by unfold INT_MAX; omega)] at h
  rw [snprintf, printfCore, h]
  simp only [take_of_length_le (Nat.le_sub_one_of_lt hlen)]

/-- Four bytes from `a[p]` on as a dotted quad. -/
def dotted (a : ℕ → UInt8) (p : ℕ) : List UInt8 :=
  numText 10 (a p).toNat ++ 46 :: (numText 10 (a (p + 1)).toNat ++ 46 :: (numText 10 (a (p + 2)).toNat ++
    46 :: numText 10 (a (p + 3)).toNat))

/-- Texts with colons between them. -/
def colons (ps : List (List UInt8)) : List UInt8 := separated 58 ps

/-- Whether an address stands for an IPv4 address. -/
def Mapped (a : ℕ → UInt8) : Prop := (List.range 12).map a = mappedHead

instance decidableMapped (a : ℕ → UInt8) : Decidable (Mapped a) :=
  inferInstanceAs (Decidable ((List.range 12).map a = mappedHead))

/-- The first `n` groups of an address. -/
def groups (a : ℕ → UInt8) (n : ℕ) : List ℕ := (List.range n).map (group a)

/-- The printed groups of an address. If it stands for an IPv4 address, the last two are a dotted quad. -/
def parts (a : ℕ → UInt8) : List (List UInt8) :=
  if Mapped a then (groups a 6).map (numText 16) ++ [dotted a 12] else (groups a 8).map (numText 16)

theorem group_lt (a : ℕ → UInt8) (k : ℕ) : group a k < 65536 := by
  have h0 := (a (2 * k)).toNat_lt
  have h1 := (a (2 * k + 1)).toNat_lt
  unfold group
  omega

theorem length_hexText (a : ℕ → UInt8) (k : ℕ) : (numText 16 (group a k)).length ≤ 4 := by
  rw [numText, length_map]
  exact length_numeral_le (by decide) (by decide) (group_lt a k)

theorem length_decText : (numText 10 c.toNat).length ≤ 3 := by
  rw [numText, length_map]
  exact length_numeral_le (by decide) (by decide) (lt_trans c.toNat_lt (by decide))

theorem length_dotted (a : ℕ → UInt8) (p : ℕ) : (dotted a p).length ≤ 15 := by
  have h0 := length_decText (a p)
  have h1 := length_decText (a (p + 1))
  have h2 := length_decText (a (p + 2))
  have h3 := length_decText (a (p + 3))
  simp only [dotted, length_append, length_cons]
  omega

/-- The pieces of a dotted quad. -/
def quadPieces (a : ℕ → UInt8) (p : ℕ) : List Piece :=
  [numPiece .d (a p).toNat, dotPiece, numPiece .d (a (p + 1)).toNat, dotPiece, numPiece .d (a (p + 2)).toNat, dotPiece,
    numPiece .d (a (p + 3)).toNat]

/-- The pieces of six groups and the colons behind them. -/
def sixPieces (a : ℕ → UInt8) : List Piece :=
  (List.range 6).flatMap fun k => [numPiece .x (group a k), colonPiece]

theorem render_hexPiece (a : ℕ → UInt8) (k : ℕ) :
    (numPiece .x (group a k)).render arch = numText 16 (group a k) :=
  render_numPiece arch (.inl rfl) (group_lt a k)

theorem render_decPiece : (numPiece .d c.toNat).render arch = numText 10 c.toNat :=
  render_numPiece arch (.inr rfl) (lt_trans c.toNat_lt (by decide))

theorem renderOf_quadPieces (a : ℕ → UInt8) (p : ℕ) :
    renderOf arch (quadPieces a p) = dotted a p := by
  simp only [quadPieces, renderOf, flatMap_cons, flatMap_nil, render_decPiece, render_dotPiece,
    dotted, append_nil, singleton_append]

/-- **A dotted quad** is printed. -/
theorem snprintf_quad (a : ℕ → UInt8) :
    snprintf arch INET6_ADDRSTRLEN quadFormat (quadArgs a 0) = some ((dotted a 0).length, dotted a 0) := by
  exact snprintf_eq (renderOf_quadPieces arch a 0) (lt_of_le_of_lt (length_dotted a 0) (by decide)) (by decide)

/-- **The groups** are printed. -/
theorem printed_eq (a : ℕ → UInt8) :
    printed arch a = some (colons (parts a)) ∧ (¬Mapped a → (colons (parts a)).length ≤ 39) := by
  have hdotted := length_dotted a 12
  have h0 := length_hexText a 0
  have h1 := length_hexText a 1
  have h2 := length_hexText a 2
  have h3 := length_hexText a 3
  have h4 := length_hexText a 4
  have h5 := length_hexText a 5
  have h6 := length_hexText a 6
  have h7 := length_hexText a 7
  unfold parts
  by_cases hm : Mapped a
  · have hrender : renderOf arch (sixPieces a ++ quadPieces a 12) =
        colons ((groups a 6).map (numText 16) ++ [dotted a 12]) := by
      rw [renderOf, flatMap_append, ← renderOf, ← renderOf, renderOf_quadPieces]
      simp [sixPieces, groups, range_succ, renderOf, render_hexPiece, render_colonPiece, colons, separated]
    have hlen : (colons ((groups a 6).map (numText 16) ++ [dotted a 12])).length ≤ 45 := by
      simp only [groups, range_succ, range_zero, nil_append, map_cons, map_nil,
        cons_append, colons, separated, length_append, length_cons]
      omega
    have hprint := snprintf_eq hrender (lt_of_le_of_lt hlen (by decide : 45 < 100)) le_rfl
    rw [if_pos hm]
    exact ⟨congrArg (Option.map Prod.snd) ((if_neg (not_not_intro hm)).trans hprint), fun h => absurd hm h⟩
  · have hrender : renderOf arch (sixPieces a ++ [numPiece .x (group a 6), colonPiece, numPiece .x (group a 7)]) =
        colons ((groups a 8).map (numText 16)) := by
      simp [sixPieces, groups, range_succ, renderOf, render_hexPiece, render_colonPiece, colons, separated]
    have hlen : (colons ((groups a 8).map (numText 16))).length ≤ 39 := by
      simp only [groups, range_succ, range_zero, nil_append, map_cons, map_nil,
        cons_append, colons, separated, length_append, length_cons]
      omega
    have hprint := snprintf_eq hrender (lt_of_le_of_lt hlen (by decide : 39 < 100)) le_rfl
    rw [if_neg hm]
    exact ⟨congrArg (Option.map Prod.snd) ((if_pos hm).trans hprint), fun _ => hlen⟩

/-! ## The loop over the printed text -/

/-- The groups behind the first one, each with the colon before it. -/
def headed (gs : List ℕ) : List UInt8 := gs.flatMap fun g => 58 :: numText 16 g

theorem headed_cons (g : ℕ) (gs : List ℕ) : headed (g :: gs) = 58 :: (numText 16 g ++ headed gs) := rfl

/-- The printed groups `gs`. -/
def joined (gs : List ℕ) : List UInt8 := colons (gs.map (numText 16))

theorem joined_append (h : gs ≠ []) (h' : gs' ≠ []) :
    joined (gs ++ gs') = joined gs ++ 58 :: joined gs' := by
  rw [joined, colons, map_append, separated_append 58 (by simpa using h) (by simpa using h')]
  rfl

theorem joined_cons (g : ℕ) : ∀ gs : List ℕ, joined (g :: gs) = numText 16 g ++ headed gs
  | [] => (append_nil _).symm
  | g' :: gs => by
    rw [headed_cons, ← joined_cons g' gs]
    rfl

theorem headed_eq (g : ℕ) (gs : List ℕ) : headed (g :: gs) = 58 :: joined (g :: gs) := by
  rw [joined_cons, headed_cons]

theorem headed_append (gs gs' : List ℕ) : headed (gs ++ gs') = headed gs ++ headed gs' := flatMap_append

/-- A group begins with a digit; this is a zero only if the group is zero. -/
theorem numText_cons (hb : 1 < b) (hb' : b ≤ 16) (n : ℕ) :
    ∃ c t, numText b n = c :: t ∧ c ≠ 58 ∧ c ≠ 0 ∧ (c = 48 → n = 0) ∧ ∀ c' ∈ t, c' ≠ 58 := by
  have hdigit : ∀ d < 16, digitChar false d ≠ 58 ∧ digitChar false d ≠ 0 ∧ (digitChar false d = 48 → d = 0) := by
    decide
  unfold numText
  rcases hds : numeral b n with _ | ⟨d, ds⟩
  · exact absurd hds (numeral_ne_nil b n)
  · have hlt : ∀ d' ∈ d :: ds, d' < 16 := fun d' hd' =>
      lt_of_lt_of_le (lt_of_mem_numeral hb (by rw [hds]; exact hd')) hb'
    obtain ⟨h58, h0, h48⟩ := hdigit d (hlt d mem_cons_self)
    refine ⟨_, _, rfl, h58, h0, fun hc => ?_, ?_⟩
    · by_contra hn
      apply head_numeral_ne hn
      rw [hds, h48 hc]
      rfl
    · intro c' hc'
      obtain ⟨d', hd', rfl⟩ := List.mem_map.mp hc'
      exact (hdigit d' (hlt d' (mem_cons_of_mem _ hd'))).1

theorem numText_ne_colon (hb : 1 < b) (hb' : b ≤ 16) (n : ℕ) : ∀ c ∈ numText b n, c ≠ 58 := by
  obtain ⟨c, t, htext, hc, -, -, ht⟩ := numText_cons hb hb' n
  rw [htext]
  intro c' hc'
  rcases List.mem_cons.mp hc' with rfl | hc'
  · exact hc
  · exact ht c' hc'

theorem spanZeros_cons (s : List UInt8) :
    spanZeros (c :: s) = if c = 58 ∨ c = 48 then spanZeros s + 1 else 0 := by
  unfold spanZeros
  by_cases h : c = 58 ∨ c = 48
  · simp [h]
  · simp [h]

/-- The length of the span at the start of groups, of which it is known whether they are zero. -/
def zeroSpan : List Bool → ℕ
  | [] => 0
  | false :: _ => 0
  | [true] => 1
  | true :: z :: zs => zeroSpan (z :: zs) + 2

/-- Which groups are zero. -/
def zeros (gs : List ℕ) : List Bool := gs.map fun g => decide (g = 0)

theorem zeros_cons (g : ℕ) (gs : List ℕ) : zeros (g :: gs) = decide (g = 0) :: zeros gs := rfl

theorem spanZeros_joined : ∀ gs : List ℕ, spanZeros (joined gs) = zeroSpan (zeros gs)
  | [] => rfl
  | g :: gs => by
    rw [joined_cons, zeros_cons]
    by_cases hg : g = 0
    · subst hg
      have htext : numText 16 0 = [48] := rfl
      rw [htext, singleton_append, spanZeros_cons]
      cases gs with
      | nil => rfl
      | cons g' gs =>
        rw [headed_eq, spanZeros_cons, spanZeros_joined (g' :: gs)]
        rfl
    · obtain ⟨c, t, htext, h58, -, h48, -⟩ := numText_cons (by decide) le_rfl g
      rw [htext, cons_append, spanZeros_cons, if_neg (by tauto)]
      simp [hg, zeroSpan]

theorem scan_append (ht : ∀ c ∈ t, c ≠ 58) (s : List UInt8) (best max : ℕ) :
    ∀ i, i ≠ 0 → scan (t ++ s) i best max = scan s (i + t.length) best max := by
  induction t with
  | nil => exact fun i _ => rfl
  | cons c t ih =>
    intro i hi
    have hc : c ≠ 58 := ht c mem_cons_self
    rw [cons_append, scan, if_pos ⟨hi, hc⟩,
      ih (fun c' hc' => ht c' (mem_cons_of_mem _ hc')) (i + 1) (by omega),
      length_cons]
    congr 1
    omega

/-- The loop over the printed text, on groups: `best` is the number of a group. -/
def groupScan : List Bool → ℕ → ℕ → ℕ → ℕ × ℕ
  | [], _, best, max => (best, max)
  | z :: zs, k, best, max =>
    let j := zeroSpan (z :: zs) + if k = 0 then 0 else 1
    if j > max + (if best = 0 then 1 else 0) then groupScan zs (k + 1) k j else groupScan zs (k + 1) best max

/-- The position of the colon before a group; that of the first group is 0. -/
def position (gs : List ℕ) (k : ℕ) : ℕ := (joined (gs.take k)).length

theorem position_eq_zero_iff : position (g :: gs) k = 0 ↔ k = 0 := by
  cases k with
  | zero => simp [position, joined, colons, separated]
  | succ k =>
    obtain ⟨c, t, htext, -⟩ := numText_cons (by decide) le_rfl g
    simp [position, joined_cons, htext]

theorem position_append {gs0 : List ℕ} (h0 : gs0 ≠ []) (g : ℕ) (gs : List ℕ) :
    position (gs0 ++ g :: gs) (gs0.length + 1) =
      position (gs0 ++ g :: gs) gs0.length + 1 + (numText 16 g).length := by
  cases gs0 with
  | nil => exact absurd rfl h0
  | cons g0 gs0 =>
    have htake : (g0 :: gs0 ++ g :: gs).take ((g0 :: gs0).length + 1) = g0 :: (gs0 ++ [g]) := by
      simp [take_append]
    have htake' : (g0 :: gs0 ++ g :: gs).take (g0 :: gs0).length = g0 :: gs0 := take_left
    have hlast : headed [g] = 58 :: numText 16 g := append_nil _
    rw [position, position, htake, htake', joined_cons, joined_cons, headed_append, hlast]
    simp only [length_append, length_cons]
    omega

theorem scan_headed : ∀ (gs gs0 : List ℕ) (best max : ℕ), gs0 ≠ [] →
    scan (headed gs) (position (gs0 ++ gs) gs0.length) (position (gs0 ++ gs) best) max =
      (position (gs0 ++ gs) (groupScan (zeros gs) gs0.length best max).1,
        (groupScan (zeros gs) gs0.length best max).2)
  | [], gs0, best, max, _ => rfl
  | g :: gs, gs0, best, max, h0 => by
    -- the groups as a list with a first one, whose position is 0
    obtain ⟨g0, gs1, hgs⟩ : ∃ g0 gs1, gs0 ++ g :: gs = g0 :: gs1 := by
      cases gs0 with
      | nil => exact absurd rfl h0
      | cons g0 gs0 => exact ⟨g0, _, rfl⟩
    have hlen : gs0.length ≠ 0 := fun h => h0 (List.length_eq_zero_iff.mp h)
    have hzero (k : ℕ) : position (gs0 ++ g :: gs) k = 0 ↔ k = 0 := by
      rw [hgs]
      exact position_eq_zero_iff
    have hcolon := numText_ne_colon (by decide) le_rfl g
    have hspan : spanZeros (58 :: (numText 16 g ++ headed gs)) = zeroSpan (zeros (g :: gs)) + 1 := by
      rw [spanZeros_cons, if_pos (.inl rfl), ← joined_cons, spanZeros_joined]
    -- the rest of the loop, with the best span so far
    have hrest (b m : ℕ) := scan_headed gs (gs0 ++ [g]) b m (by simp)
    simp only [append_assoc, singleton_append, length_append, length_singleton] at hrest
    rw [headed_cons, scan, if_neg (fun hc => hc.2 rfl), hspan]
    simp only [scan_append hcolon _ _ _ _ (Nat.succ_ne_zero _), ← position_append h0, hzero, hrest]
    rw [zeros_cons, groupScan]
    generalize max + (if best = 0 then 1 else 0) = bound
    split <;> rfl

/-- **The loop over the printed text** finds the group and the span that the loop on groups finds. -/
theorem scan_joined (g : ℕ) (gs : List ℕ) :
    scan (joined (g :: gs)) 0 0 2 =
      (position (g :: gs) (groupScan (zeros (g :: gs)) 0 0 2).1, (groupScan (zeros (g :: gs)) 0 0 2).2) := by
  obtain ⟨c, t, htext, -, -, -, ht⟩ := numText_cons (by decide) le_rfl g
  have hspan : spanZeros (c :: (t ++ headed gs)) = zeroSpan (zeros (g :: gs)) := by
    rw [← spanZeros_joined, joined_cons, htext, cons_append]
  have hpos : position (g :: gs) 0 = 0 := position_eq_zero_iff.mpr rfl
  have hone : 0 + 1 + t.length = position (g :: gs) 1 := by
    simp [position, joined, colons, separated, htext, Nat.add_comm]
  have hrest (m : ℕ) := scan_headed gs [g] 0 m (cons_ne_nil _ _)
  simp only [singleton_append, length_singleton, hpos] at hrest
  rw [joined_cons, htext, cons_append, scan, if_neg (fun hc => hc.1 rfl), hspan]
  rw [scan_append ht _ _ _ _ (Nat.succ_ne_zero _), scan_append ht _ _ _ _ (Nat.succ_ne_zero _), hone, hrest, hrest,
    zeros_cons, groupScan]
  simp only [if_true, Nat.add_zero]
  split <;> rfl

/-! ## Runs of zero groups -/

/-- A run of two or more zero groups. -/
def ZeroRun (gs : List ℕ) (b n : ℕ) : Prop := 2 ≤ n ∧ b + n ≤ gs.length ∧ ∀ k, b ≤ k → k < b + n → gs.getD k 1 = 0

/-- The first of the longest runs of two or more zero groups. -/
def LeftmostLongest (gs : List ℕ) (b n : ℕ) : Prop :=
  ZeroRun gs b n ∧ ∀ b' n', ZeroRun gs b' n' → n' < n ∨ (n' = n ∧ b ≤ b')

/-- The number of zero groups at the front. -/
def runLength : List Bool → ℕ
  | true :: zs => runLength zs + 1
  | _ => 0

theorem le_runLength_zeros : ∀ {gs : List ℕ} {n : ℕ},
    n ≤ runLength (zeros gs) ↔ n ≤ gs.length ∧ ∀ k < n, gs.getD k 1 = 0
  | [], n => by
    rw [show runLength (zeros []) = 0 from rfl]
    exact ⟨fun h => ⟨h, fun k hk => absurd hk (by omega)⟩, And.left⟩
  | g :: gs, 0 => ⟨fun _ => ⟨Nat.zero_le _, fun k hk => absurd hk (Nat.not_lt_zero k)⟩, fun _ => Nat.zero_le _⟩
  | g :: gs, n + 1 => by
    by_cases hg : g = 0
    · rw [zeros_cons, decide_eq_true hg, runLength, Nat.succ_le_succ_iff, le_runLength_zeros, length_cons,
        Nat.succ_le_succ_iff]
      refine and_congr_right fun _ => ⟨fun h k hk => ?_, fun h k hk => h (k + 1) (by omega)⟩
      cases k with
      | zero => exact hg
      | succ k => exact h k (by omega)
    · rw [zeros_cons, decide_eq_false hg, runLength]
      · exact ⟨fun h => absurd h (by omega), fun h => absurd (h.2 0 (Nat.succ_pos n)) hg⟩
      · simp

theorem zeroRun_iff : ZeroRun gs b n ↔ 2 ≤ n ∧ n ≤ runLength ((zeros gs).drop b) := by
  have hdrop : (zeros gs).drop b = zeros (gs.drop b) := List.map_drop.symm
  have hget (k : ℕ) : (gs.drop b).getD k 1 = gs.getD (b + k) 1 := by
    simp only [getD_eq_getElem?_getD, getElem?_drop]
  rw [hdrop, le_runLength_zeros, length_drop]
  refine and_congr_right fun hn => and_congr (by omega) ⟨fun h k hk => ?_, fun h k hk hk' => ?_⟩
  · rw [hget]
    exact h (b + k) (by omega) (by omega)
  · have := h (k - b) (by omega)
    rwa [hget, Nat.add_sub_cancel' hk] at this

/-- The length of the span of a run: its zeros with the colons between them, and the colons around it. -/
def spanLength (b n : ℕ) : ℕ := (if b = 0 then 0 else 1) + (2 * n - 1) + if b + n = 8 then 0 else 1

/-- What the loop on groups has to find. -/
def Good (zs : List Bool) (r : ℕ × ℕ) : Prop :=
  (r.2 ≤ 3 ∧ ∀ b < 8, runLength (zs.drop b) < 2) ∨
    (3 < r.2 ∧ r.2 = spanLength r.1 (runLength (zs.drop r.1)) ∧ 2 ≤ runLength (zs.drop r.1) ∧
      ∀ b < 8, runLength (zs.drop b) < runLength (zs.drop r.1) ∨
        (runLength (zs.drop b) = runLength (zs.drop r.1) ∧ r.1 ≤ b))

instance decidableGood (zs : List Bool) (r : ℕ × ℕ) : Decidable (Good zs r) :=
  inferInstanceAs (Decidable ((_ ∧ _) ∨ (_ ∧ _)))

/-- **The loop on groups** finds the first of the longest runs, for each of the 256 patterns of zero groups. -/
theorem groupScan_good : ∀ z0 z1 z2 z3 z4 z5 z6 z7 : Bool,
    Good [z0, z1, z2, z3, z4, z5, z6, z7] (groupScan [z0, z1, z2, z3, z4, z5, z6, z7] 0 0 2) := by
  decide +kernel

/-! ## The shortened text -/

theorem length_joined_replicate (n : ℕ) : (joined (List.replicate (n + 1) 0)).length = 2 * (n + 1) - 1 := by
  have hzero : (numText 16 0).length = 1 := rfl
  have hheaded : ∀ n, (headed (replicate n 0)).length = 2 * n := by
    intro n
    induction n with
    | zero => rfl
    | succ n ih =>
      rw [replicate_succ, headed_cons, length_cons, length_append]
      omega
  rw [replicate_succ, joined_cons, length_append, hheaded]
  omega

/-- The text of groups with a run of zeros: what is before the run, its span, and what is behind it. -/
theorem joined_run (gs gs' : List ℕ) (n : ℕ) :
    ∃ t, joined (gs ++ (List.replicate (n + 1) 0 ++ gs')) = joined gs ++ (t ++ joined gs') ∧
      t.length = (if gs.length = 0 then 0 else 1) + (2 * (n + 1) - 1) + if gs'.length = 0 then 0 else 1 := by
  have hrep : replicate (n + 1) 0 ≠ [] := by simp
  have hmid : ∃ t, joined (replicate (n + 1) 0 ++ gs') = t ++ joined gs' ∧
      t.length = (2 * (n + 1) - 1) + if gs'.length = 0 then 0 else 1 := by
    rcases eq_or_ne gs' [] with rfl | h'
    · exact ⟨_, by rw [append_nil]; exact (append_nil _).symm, length_joined_replicate n⟩
    · refine ⟨joined (replicate (n + 1) 0) ++ [58], ?_, ?_⟩
      · rw [joined_append hrep h', append_assoc]
        rfl
      · rw [length_append, length_joined_replicate, if_neg (mt List.length_eq_zero_iff.mp h')]
        rfl
  obtain ⟨t, ht, hlen⟩ := hmid
  rcases eq_or_ne gs [] with rfl | h
  · exact ⟨t, ht, by rw [hlen]; simp⟩
  · refine ⟨58 :: t, ?_, ?_⟩
    · rw [joined_append h (by simp), ht]
      rfl
    · rw [length_cons, if_neg (mt List.length_eq_zero_iff.mp h)]
      omega

theorem ZeroRun.split (h : ZeroRun gs b n) :
    gs = gs.take b ++ (List.replicate n 0 ++ gs.drop (b + n)) := by
  obtain ⟨-, hlen, hzero⟩ := h
  have hrep : (gs.drop b).take n = replicate n 0 := by
    apply ext_getElem
    · rw [length_take, length_drop, length_replicate]
      omega
    · intro k hk hk'
      rw [length_replicate] at hk'
      have := hzero (b + k) (by omega) (by omega)
      rw [getD_eq_getElem _ _ (by omega)] at this
      rw [getElem_take, getElem_drop, getElem_replicate, this]
  rw [← hrep, ← drop_drop, take_append_drop, take_append_drop]

/-- **The text of eight groups** has the first of its longest runs of zeros replaced, if it has one. -/
theorem shorten_joined (hgs : gs.length = 8) :
    (∃ b n, LeftmostLongest gs b n ∧
      shorten (joined gs) = joined (gs.take b) ++ [58, 58] ++ joined (gs.drop (b + n))) ∨
    ((∀ b n, ¬ZeroRun gs b n) ∧ shorten (joined gs) = joined gs) := by
  have hrun {b n : ℕ} (h : ZeroRun gs b n) : b < 8 := by
    obtain ⟨hn, hlen, -⟩ := h
    omega
  have hgood : Good (zeros gs) (groupScan (zeros gs) 0 0 2) ∧ scan (joined gs) 0 0 2 =
      (position gs (groupScan (zeros gs) 0 0 2).1, (groupScan (zeros gs) 0 0 2).2) := by
    match gs, hgs with
    | [g0, g1, g2, g3, g4, g5, g6, g7], _ => exact ⟨groupScan_good _ _ _ _ _ _ _ _, scan_joined _ _⟩
  obtain ⟨hgood, hscan⟩ := hgood
  unfold shorten
  rw [hscan]
  generalize groupScan (zeros gs) 0 0 2 = r at hgood
  rcases hgood with ⟨hsmall, hnone⟩ | ⟨hlarge, hspan, hn, hlongest⟩
  · refine .inr ⟨fun b n h => ?_, if_neg (Nat.not_lt.mpr hsmall)⟩
    have hshort := hnone b (hrun h)
    obtain ⟨hn, hle⟩ := zeroRun_iff.mp h
    omega
  · have hzero : ZeroRun gs r.1 (runLength ((zeros gs).drop r.1)) := zeroRun_iff.mpr ⟨hn, le_rfl⟩
    generalize runLength ((zeros gs).drop r.1) = n at hspan hlongest hzero
    refine .inl ⟨r.1, n, ⟨hzero, fun b' n' h => ?_⟩, ?_⟩
    · have hother := hlongest b' (hrun h)
      have hle := (zeroRun_iff.mp h).2
      omega
    · obtain ⟨m, rfl⟩ := Nat.exists_eq_add_one_of_ne_zero (by have := hzero.1; omega : n ≠ 0)
      have hlen := hzero.2.1
      obtain ⟨t, htext, ht⟩ := joined_run (gs.take r.1) (gs.drop (r.1 + (m + 1))) m
      rw [← hzero.split] at htext
      -- the span is what the text has between the groups that stay
      have htlen : t.length = r.2 := by
        rw [ht, hspan, length_take, length_drop, Nat.min_eq_left (by omega)]
        congr 2
        exact propext (by omega)
      rw [if_pos hlarge, htext, position, take_left, ← drop_drop, drop_left, ← htlen, drop_left]

/-- Two bytes of which not both are colons. -/
def Apart (c c' : UInt8) : Prop := ¬(c = 58 ∧ c' = 58)

theorem isChain_apart (ht : ∀ c ∈ t, c ≠ 58) : t.IsChain Apart := by
  have hpair : t.Pairwise Apart := pairwise_of_forall_mem_list fun c hc _ _ h => ht c hc h.1
  exact hpair.isChain

/-- Groups that are printed one after the other have single colons between them. -/
theorem not_infix_joined (gs : List ℕ) : ¬[58, 58] <:+: joined gs := by
  have hnum (g : ℕ) := numText_ne_colon (by decide) le_rfl g
  have hjoined : ∀ gs : List ℕ, (joined gs).IsChain Apart ∧ ∀ c ∈ (joined gs).head?, c ≠ 58 := by
    intro gs
    induction gs with
    | nil => exact ⟨IsChain.nil, fun c hc => by cases hc⟩
    | cons g gs ih =>
      obtain ⟨c, t, htext, hc, -⟩ := numText_cons (by decide) le_rfl g
      have hhead : ∀ c' ∈ (joined (g :: gs)).head?, c' ≠ 58 := by
        rw [joined_cons, htext]
        intro c' hc'
        obtain rfl := Option.some.inj hc'
        exact hc
      refine ⟨?_, hhead⟩
      cases gs with
      | nil => exact isChain_apart (hnum g)
      | cons g' gs =>
        -- the colon stands between two other bytes
        rw [joined_cons, headed_eq, isChain_append, isChain_cons]
        refine ⟨isChain_apart (hnum g), ⟨fun c hc h => ih.2 c hc h.2, ih.1⟩, fun c hc _ _ h => ?_⟩
        exact hnum g c (mem_of_mem_getLast? hc) h.1
  rintro ⟨s, t, h⟩
  have := (hjoined gs).1
  rw [← h, isChain_append, isChain_append, isChain_cons_cons] at this
  exact this.1.2.1.1 ⟨rfl, rfl⟩

/-! ## Reading a text -/

/-- Groups, each with the colon behind it. -/
def terminated (gs : List ℕ) : List UInt8 := gs.flatMap fun g => numText 16 g ++ [58]

theorem terminated_cons (g : ℕ) (gs : List ℕ) : terminated (g :: gs) = numText 16 g ++ 58 :: terminated gs := by
  simp [terminated]

/-- The array with groups stored from an index on. -/
def store (ip : ℕ → ℕ) (i : ℕ) (gs : List ℕ) : ℕ → ℕ :=
  fun k => if i ≤ k ∧ k < i + gs.length then gs.getD (k - i) 0 else ip k

variable (ip : ℕ → ℕ)

theorem store_nil (i : ℕ) : store ip i [] = ip := by
  funext k
  rw [store, if_neg (by simp)]

theorem store_cons (i g : ℕ) (gs : List ℕ) :
    store ip i (g :: gs) = store (Function.update ip i g) (i + 1) gs := by
  funext k
  unfold store
  rw [length_cons]
  rcases lt_trichotomy k i with h | rfl | h
  · rw [if_neg (by omega), if_neg (by omega), Function.update_of_ne h.ne]
  · rw [if_pos (by omega), if_neg (by omega), Function.update_self, Nat.sub_self]
    rfl
  · rw [Function.update_of_ne h.ne']
    congr 1
    · exact propext (by omega)
    · rw [show k - i = k - (i + 1) + 1 by omega, getD_cons_succ]

theorem byte_append (s : List UInt8) (j : ℕ) : byte (t ++ s) (t.length + j) = byte s j := by
  unfold byte
  rw [append_assoc, getD_append_right _ _ _ _ (Nat.le_add_right _ _), Nat.add_sub_cancel_left]

theorem byte_end (t s : List UInt8) : byte (t ++ s) t.length = byte s 0 := byte_append s 0

theorem byte_numText (hb : 1 < b) (hb' : b ≤ 16) (n : ℕ) (s : List UInt8) :
    byte (numText b n ++ s) 0 ≠ 58 ∧ byte (numText b n ++ s) 0 ≠ 0 ∧ (byte (numText b n ++ s) 0 = 48 → n = 0) ∧
      (numText b n).length ≠ 0 := by
  obtain ⟨c, t, htext, h58, h0, h48, -⟩ := numText_cons hb hb' n
  rw [htext]
  exact ⟨h58, h0, h48, by simp⟩

/-- A round of the loop that reads a group with a colon behind it. -/
theorem pton6Loop_group (hi : i < 7) (hg : g < 65536) (fuel : ℕ) (s : List UInt8) (brk : Option ℕ) (ip : ℕ → ℕ) :
    pton6Loop (fuel + 1) i (numText 16 g ++ 58 :: s) brk ip =
      pton6Loop fuel (i + 1) s brk (Function.update ip i g) := by
  obtain ⟨h58, -, -, hlen⟩ := byte_numText (by decide) le_rfl g (58 :: s)
  rw [pton6Loop, if_neg (fun hc => h58 hc.1)]
  simp only [hexLoop_numText hg (stops_cons (c := 58) rfl), byte_end, byte_zero, drop_length_add_append, drop_one, tail_cons,
    Nat.mod_eq_of_lt (show i < 8 by omega)]
  rw [if_neg hlen, if_neg (fun hc => absurd hc.1 (by decide)), if_neg hi.ne, if_neg (fun hc => hc rfl)]

/-- **The loop for `AF_INET6`** reads groups with colons behind them into the array. -/
theorem pton6Loop_terminated (fuel : ℕ) (s : List UInt8) (brk : Option ℕ) : ∀ (gs : List ℕ) (i : ℕ) (ip : ℕ → ℕ),
    (∀ g ∈ gs, g < 65536) → i + gs.length ≤ 7 →
      pton6Loop (fuel + gs.length) i (terminated gs ++ s) brk ip =
        pton6Loop fuel (i + gs.length) s brk (store ip i gs)
  | [], i, ip, _, _ => by rw [store_nil]; rfl
  | g :: gs, i, ip, hg, hi => by
    rw [length_cons] at hi
    have ih := pton6Loop_terminated fuel s brk gs (i + 1) (Function.update ip i g)
      (fun g' hg' => hg g' (mem_cons_of_mem _ hg')) (by omega)
    rw [terminated_cons, append_assoc, cons_append, length_cons, ← Nat.add_assoc,
      pton6Loop_group (by omega) (hg g mem_cons_self), ih, store_cons, Nat.add_right_comm, Nat.add_assoc]

theorem pton6Loop_last (hi : i < 8) (hg : g < 65536) {brk : Option ℕ} (hbrk : brk ≠ none ∨ i = 7)
    (fuel : ℕ) (ip : ℕ → ℕ) :
    pton6Loop (fuel + 1) i (numText 16 g) brk ip =
      some ⟨i, brk, Function.update ip i g, numText 16 g, false⟩ := by
  have hread := hexLoop_numText hg (stops_nil hexval)
  obtain ⟨h58, -, -, hlen⟩ := byte_numText (by decide) le_rfl g []
  have hnext := byte_end (numText 16 g) []
  rw [append_nil] at hread h58 hnext
  rw [pton6Loop, if_neg (fun hc => h58 hc.1)]
  simp only [hread, hnext, Nat.mod_eq_of_lt hi]
  rw [if_neg hlen, if_pos ⟨rfl, hbrk⟩]

theorem joined_concat (gs : List ℕ) (g : ℕ) : joined (gs ++ [g]) = terminated gs ++ numText 16 g := by
  induction gs with
  | nil => rfl
  | cons g' gs ih =>
    rw [show g' :: gs ++ [g] = [g'] ++ (gs ++ [g]) from rfl, joined_append (by simp) (by simp), ih, terminated_cons,
      append_assoc]
    rfl

theorem terminated_eq (h : gs ≠ []) : terminated gs = joined gs ++ [58] := by
  obtain ⟨gs, g, rfl⟩ := (eq_nil_or_concat gs).resolve_left h
  rw [concat_eq_append, joined_concat, terminated, flatMap_append, ← terminated]
  simp

theorem store_concat (i : ℕ) (gs : List ℕ) (g : ℕ) :
    store ip i (gs ++ [g]) = Function.update (store ip i gs) (i + gs.length) g := by
  induction gs generalizing ip i with
  | nil =>
    rw [nil_append, store_cons, store_nil, store_nil]
    rfl
  | cons g' gs ih =>
    rw [cons_append, store_cons, store_cons, ih, length_cons, Nat.add_right_comm, Nat.add_assoc]

/-- The last groups of a text, behind `i` others, are read into the array. -/
theorem pton6Loop_joined (fuel : ℕ) (brk : Option ℕ) (hgs : gs ≠ []) (hg : ∀ g ∈ gs, g < 65536)
    (hi : i + gs.length ≤ 8) (hbrk : brk ≠ none ∨ i + gs.length = 8) (ip : ℕ → ℕ) :
    ∃ s, pton6Loop (fuel + gs.length) i (joined gs) brk ip =
      some ⟨i + gs.length - 1, brk, store ip i gs, s, false⟩ := by
  obtain ⟨gs, g, rfl⟩ := (eq_nil_or_concat gs).resolve_left hgs
  rw [concat_eq_append] at *
  rw [length_append, length_singleton] at *
  have hlast := pton6Loop_last (i := i + gs.length) (by omega) (hg g (by simp))
    (hbrk.imp_right fun h => by omega) fuel (store ip i gs)
  have hinit := pton6Loop_terminated (fuel + 1) (numText 16 g) brk gs i ip
    (fun g' hg' => hg g' (mem_append_left _ hg')) (by omega)
  refine ⟨numText 16 g, ?_⟩
  rw [joined_concat, show fuel + (gs.length + 1) = fuel + 1 + gs.length by omega, hinit, hlast, store_concat]
  rfl

/-- **Groups with two colons among them** are read: the groups before the colons, a zero for these, and the groups
behind them. -/
theorem pton6Loop_gap (hg : ∀ g ∈ gs, g < 65536) (hg' : ∀ g ∈ gs', g < 65536)
    (hlen : gs.length + gs'.length ≤ 6) (ip : ℕ → ℕ) :
    ∃ s, pton6Loop 8 0 (terminated gs ++ 58 :: joined gs') none ip =
      some ⟨gs.length + gs'.length, some gs.length, store (store ip 0 gs) gs.length (0 :: gs'), s, false⟩ := by
  obtain ⟨fuel, hfuel⟩ : ∃ fuel, 8 = fuel + gs'.length + 1 + gs.length := ⟨7 - gs'.length - gs.length, by omega⟩
  have hinit := pton6Loop_terminated (fuel + gs'.length + 1) (58 :: joined gs') none gs 0 ip hg (by omega)
  rw [← hfuel, Nat.zero_add] at hinit
  rw [hinit, pton6Loop, if_pos ⟨byte_zero _ _, rfl⟩, byte_succ, Nat.mod_eq_of_lt (by omega), store_cons]
  rcases eq_or_ne gs' [] with rfl | h'
  · refine ⟨[], ?_⟩
    rw [store_nil]
    rfl
  · have hbyte : byte (joined gs') 0 ≠ 0 := by
      obtain ⟨g, gs', rfl⟩ := exists_cons_of_ne_nil h'
      rw [joined_cons]
      exact (byte_numText (by decide) le_rfl g _).2.1
    obtain ⟨s, hrest⟩ := pton6Loop_joined fuel (some gs.length) h' hg' (i := gs.length + 1) (by omega)
      (.inl (by simp)) (Function.update (store ip 0 gs) gs.length 0)
    refine ⟨s, ?_⟩
    rw [if_neg hbyte, if_neg (by omega)]
    rw [show gs.length + 1 + gs'.length - 1 = gs.length + gs'.length by omega] at hrest
    exact hrest

/-- **The groups behind the colons** are moved to the end of the array, and the gap is cleared. -/
theorem spread_store (hn : n ≠ 0) (hlen : gs.length + (n + gs'.length) = 8) (ip : ℕ → ℕ) (hk : k < 8) :
    spread (store (store ip 0 gs) gs.length (0 :: gs')) (gs.length + gs'.length) gs.length k =
      (gs ++ (List.replicate n 0 ++ gs')).getD k 0 := by
  unfold spread
  rcases lt_or_ge k gs.length with h | h
  · rw [if_neg (by omega), if_neg (by omega), store, if_neg (by omega), store, if_pos (by omega),
      getD_append _ _ _ _ h]
    rfl
  · rw [getD_append_right _ _ _ _ h]
    rcases lt_or_ge (k - gs.length) n with hz | hz
    · rw [getD_append _ _ _ _ (by simpa using hz), getD_replicate _ hz]
      split
      · rfl
      · rw [if_pos (by omega), store, if_pos (by simp; omega)]
        rw [show gs.length + (k - (gs.length + 7 - (gs.length + gs'.length))) - gs.length = 0 by omega]
        rfl
    · rw [if_neg (by omega), if_pos (by omega), store, if_pos (by simp; omega),
        getD_append_right _ _ _ _ (by simpa using hz), length_replicate]
      rw [show gs.length + (k - (gs.length + 7 - (gs.length + gs'.length))) - gs.length = k - gs.length - n + 1 by
          omega,
        getD_cons_succ]

/-- The bytes of the groups of an address are its bytes. -/
theorem groupBytes_eq {ip : ℕ → ℕ} (h : ∀ k < 8, ip k = group a k) :
    groupBytes ip = (List.range 16).map a := by
  have hbytes (k : ℕ) : UInt8.ofNat (group a k / 256) = a (2 * k) ∧ UInt8.ofNat (group a k) = a (2 * k + 1) := by
    have h1 := (a (2 * k + 1)).toNat_lt
    have hdiv : group a k / 256 = (a (2 * k)).toNat := by
      unfold group
      omega
    have hmod : group a k % 256 = (a (2 * k + 1)).toNat := by
      unfold group
      omega
    refine ⟨by rw [hdiv, UInt8.ofNat_toNat], UInt8.toNat_inj.mp ?_⟩
    rw [UInt8.toNat_ofNat', ← hmod]
  have hpair : ∀ k ∈ range 8, [UInt8.ofNat (ip k / 256), UInt8.ofNat (ip k)] = [a (2 * k), a (2 * k + 1)] := by
    intro k hk
    rw [h k (List.mem_range.mp hk), (hbytes k).1, (hbytes k).2]
  unfold groupBytes
  rw [flatMap_congr hpair]
  rfl

theorem getD_groups (a : ℕ → UInt8) (hk : k < 8) (d : ℕ) : (groups a 8).getD k d = group a k := by
  have hlen : k < (groups a 8).length := by simpa [groups] using hk
  rw [getD_eq_getElem _ _ hlen]
  simp [groups]

theorem groups_lt (h : g ∈ groups a n) : g < 65536 := by
  obtain ⟨k, -, rfl⟩ := List.mem_map.mp h
  exact group_lt a k

/-! ## Dotted quads -/

/-- The tests of a round accept a byte: it has no leading zero, since only zero begins with one. -/
theorem pton4_accepts (s : List UInt8) :
    ¬((numText 10 c.toNat).length = 0 ∨
      ((numText 10 c.toNat).length > 1 ∧ byte (numText 10 c.toNat ++ s) 0 = 48) ∨ c.toNat > 255) := by
  obtain ⟨-, -, h48, hlen⟩ := byte_numText (b := 10) (by decide) (by decide) c.toNat s
  rintro (h | ⟨hone, hzero⟩ | h)
  · exact hlen h
  · rw [h48 hzero] at hone
    exact absurd hone (by decide)
  · have := c.toNat_lt
    omega

theorem pton4_numText (hk : k ≠ 0) (c : UInt8) (s : List UInt8) :
    pton4 (k + 1) (numText 10 c.toNat ++ 46 :: s) = (pton4 k s).map (c :: ·) := by
  rw [pton4]
  simp only [decLoop_numText c (stops_cons (c := 46) rfl), byte_end, byte_zero, drop_length_add_append, drop_one, tail_cons,
    UInt8.ofNat_toNat]
  rw [if_neg (pton4_accepts c _), if_neg (fun hc => hk hc.2), if_neg (fun hc => hc rfl)]

theorem pton4_last : pton4 1 (numText 10 c.toNat) = some [c] := by
  have hread := decLoop_numText c (stops_nil decval)
  have hnext := byte_end (numText 10 c.toNat) []
  have haccepts := pton4_accepts c []
  rw [append_nil] at hread hnext haccepts
  rw [pton4]
  simp only [hread, hnext, UInt8.ofNat_toNat]
  rw [if_neg haccepts, if_pos ⟨rfl, trivial⟩]

/-- **A dotted quad** is read back. -/
theorem pton4_dotted (a : ℕ → UInt8) (p : ℕ) : pton4 4 (dotted a p) = some ((List.range 4).map fun k => a (p + k)) := by
  rw [dotted, pton4_numText (by decide), pton4_numText (by decide), pton4_numText (by decide), pton4_last]
  rfl

theorem dotted_ne_colon (a : ℕ → UInt8) (p : ℕ) : ∀ c ∈ dotted a p, c ≠ 58 := by
  have hnum (c : UInt8) := numText_ne_colon (b := 10) (by decide) (by decide) c.toNat
  intro c hc
  simp only [dotted, mem_append, mem_cons] at hc
  rcases hc with h | rfl | h | rfl | h | rfl | h
  · exact hnum _ c h
  · decide
  · exact hnum _ c h
  · decide
  · exact hnum _ c h
  · decide
  · exact hnum _ c h

/-- A dotted quad begins with a point behind its first zero, if it begins with one. -/
theorem spanZeros_dotted (a : ℕ → UInt8) (p : ℕ) : spanZeros (dotted a p) ≤ 1 := by
  obtain ⟨c, t, htext, h58, -, h48, -⟩ := numText_cons (b := 10) (by decide) (by decide) (a p).toNat
  unfold dotted
  by_cases hc : c = 48
  · rw [h48 hc, show numText 10 0 = [48] from rfl, singleton_append, spanZeros_cons, spanZeros_cons]
    simp
  · rw [htext, cons_append, spanZeros_cons, if_neg (by tauto)]
    exact Nat.zero_le 1

/-- The bytes before the dotted quad, as they are printed and as they are in the shortened text. -/
def mappedPrinted : List UInt8 := [48, 58, 48, 58, 48, 58, 48, 58, 48, 58, 102, 102, 102, 102, 58]

theorem group_of_mapped (h : Mapped a) : (∀ k < 5, group a k = 0) ∧ group a 5 = 65535 := by
  have hbyte {k : ℕ} (hk : k < 12) : a k = mappedHead.getD k 0 := by
    rw [← h, getD_eq_getElem _ _ (by simpa using hk)]
    simp
  constructor
  · intro k hk
    unfold group
    rw [hbyte (by omega), hbyte (by omega)]
    interval_cases k <;> rfl
  · unfold group
    rw [hbyte (by decide), hbyte (by decide)]
    rfl

theorem parts_of_mapped (h : Mapped a) :
    parts a = [[48], [48], [48], [48], [48], [102, 102, 102, 102], dotted a 12] := by
  obtain ⟨hzero, hffff⟩ := group_of_mapped h
  have hgroups : groups a 6 = [group a 0, group a 1, group a 2, group a 3, group a 4, group a 5] := rfl
  rw [parts, if_pos h, hgroups, hzero 0 (by decide), hzero 1 (by decide), hzero 2 (by decide), hzero 3 (by decide),
    hzero 4 (by decide), hffff]
  rfl

/-- The text of an address that stands for an IPv4 address. -/
theorem shorten_mapped (h : Mapped a) :
    shorten (colons (parts a)) = [58, 58, 102, 102, 102, 102, 58] ++ dotted a 12 := by
  have htext : colons (parts a) = mappedPrinted ++ dotted a 12 := by
    rw [parts_of_mapped h]
    rfl
  -- the span of five zeros is taken at once, and no later one is longer
  have hscan : scan (mappedPrinted ++ dotted a 12) 0 0 2 = scan (58 :: dotted a 12) 14 0 10 := rfl
  have hspan : spanZeros (58 :: dotted a 12) ≤ 2 := by
    exact Nat.succ_le_succ (spanZeros_dotted a 12)
  have hrest := scan_append (dotted_ne_colon a 12) [] 0 10 15 (by decide)
  rw [append_nil] at hrest
  rw [scan, if_neg (fun hc => hc.2 rfl), if_neg (by omega), hrest] at hscan
  rw [shorten, htext, hscan]
  rfl

/-- What `inet_pton` returns for a text that the loop for `AF_INET6` begins with. -/
def readGroups (s : List UInt8) (ip₀ : ℕ → ℕ) : ℤ × List UInt8 :=
  (((pton6Loop 8 0 s none ip₀).bind Groups.finish).map (1, ·)).getD (0, [])

theorem inetPton_colons (s : List UInt8) (ip0 : ℕ → ℕ) :
    inetPton AF_INET6 (58 :: 58 :: s) ip0 = readGroups (58 :: s) ip0 := by
  rw [inetPton, if_neg (by decide), if_neg (by decide), byte_succ, byte_zero, if_neg (fun hc => hc.2 rfl)]
  rfl

theorem inetPton_other (hs : byte s 0 ≠ 58) (ip0 : ℕ → ℕ) :
    inetPton AF_INET6 s ip0 = readGroups s ip0 := by
  rw [inetPton, if_neg (by decide), if_neg (by decide), if_neg (fun hc => hs hc.1)]
  simp only [if_neg hs]
  rfl

/-- The first byte of a dotted quad is read as a group, up to the point behind it. -/
theorem pton6Loop_quad (fuel : ℕ) (a : ℕ → UInt8) (p : ℕ) (brk : ℕ) (ip : ℕ → ℕ) :
    ∃ v, pton6Loop (fuel + 1) 2 (dotted a p) (some brk) ip =
      some ⟨3, some brk, Function.update (Function.update ip 2 v) 3 0, dotted a p, true⟩ := by
  obtain ⟨s, hs⟩ : ∃ s, dotted a p = numText 10 (a p).toNat ++ 46 :: s := ⟨_, rfl⟩
  have hread := digitLoop_numText (b := 10) (k := 4) (by decide)
    (fun d hd => hexval_digitChar (lt_trans hd (by decide))) (by decide)
    (lt_trans (a p).toNat_lt (by decide)) (stops_cons (c := 46) (s := s) rfl) 16
  generalize (numeral 10 (a p).toNat).foldl (fun v d => 16 * v + d) 0 = v at hread
  obtain ⟨h58, -, -, hpos⟩ := byte_numText (b := 10) (by decide) (by decide) (a p).toNat (46 :: s)
  refine ⟨v, ?_⟩
  rw [hs, pton6Loop, if_neg (fun hc => h58 hc.1)]
  simp only [hread, byte_end, byte_zero]
  rw [if_neg hpos, if_neg (fun hc => absurd hc.1 (by decide)), if_neg (by decide), if_pos (by decide),
    if_neg (fun hc => hc.elim (fun h => h rfl) fun h => absurd h.2 (by simp))]

/-- **An address that stands for an IPv4 address** is read back. -/
theorem inetPton_mapped (h : Mapped a) (ip0 : ℕ → ℕ) :
    inetPton AF_INET6 ([58, 58, 102, 102, 102, 102, 58] ++ dotted a 12) ip0 = (1, (List.range 16).map a) := by
  have hf : numText 16 65535 = [102, 102, 102, 102] := by
    simp [numText, numeral, digitChar]
  -- the two colons, the group `ffff` and the first byte of the quad
  have hgroup := pton6Loop_group (i := 1) (by decide) (g := 65535) (by decide) 6 (dotted a 12) (some 0)
    (Function.update ip0 0 0)
  rw [hf] at hgroup
  obtain ⟨v, hquad⟩ := pton6Loop_quad 5 a 12 0 (Function.update (Function.update ip0 0 0) 1 65535)
  have hloop : pton6Loop 8 0 (58 :: ([102, 102, 102, 102] ++ 58 :: dotted a 12)) none ip0 =
      pton6Loop 7 1 ([102, 102, 102, 102] ++ 58 :: dotted a 12) (some 0) (Function.update ip0 0 0) := rfl
  rw [hgroup, hquad] at hloop
  have hhead : (range 16).map a = mappedHead ++ (range 4).map fun k => a (12 + k) := by
    rw [← h]
    rfl
  -- the groups from the two colons on are moved by four
  have hfirst (ip : ℕ → ℕ) (h0 : ip 0 = 0) (h1 : ip 1 = 65535) : (groupBytes (spread ip 3 0)).take 12 = mappedHead := by
    simp [groupBytes, range_succ, spread, h0, h1, mappedHead]
  have hcolons := inetPton_colons ([102, 102, 102, 102] ++ 58 :: dotted a 12) ip0
  rw [readGroups, hloop, Option.bind_some, Groups.finish, pton4_dotted, Groups.array,
    hfirst _ (by simp) (by simp)] at hcolons
  rw [hhead]
  exact hcolons

/-! ## The round trip -/

/-- A text has the first of the longest runs of two or more zero groups replaced by two colons, and no two colons
one behind the other if there is no such run. -/
def Shortened (gs : List ℕ) (ps : List (List UInt8)) (text : List UInt8) : Prop :=
  (∃ b n, LeftmostLongest gs b n ∧ text = colons (ps.take b) ++ [58, 58] ++ colons (ps.drop (b + n))) ∨
    ((∀ b n, ¬ZeroRun gs b n) ∧ text = colons ps ∧ ¬[58, 58] <:+: text)

/-- The five zero groups before `ffff` are the longest run. -/
theorem leftmostLongest_of_mapped (h : Mapped a) : LeftmostLongest (groups a 8) 0 5 := by
  obtain ⟨hzero, hffff⟩ := group_of_mapped h
  have hlen : (groups a 8).length = 8 := rfl
  refine ⟨⟨by decide, by rw [hlen]; decide, fun k _ hk => ?_⟩, fun b n hrun => ?_⟩
  · rw [getD_groups a (by omega), hzero k (by omega)]
  · obtain ⟨-, hbn, hk⟩ := hrun
    -- a run does not contain the group `ffff`
    have hout : b > 5 ∨ b + n ≤ 5 := by
      by_contra hc
      have := hk 5 (by omega) (by omega)
      rw [getD_groups a (by decide), hffff] at this
      cases this
    omega

/-- **Eight groups** are read back from their shortened text. -/
theorem inetPton_shortened (h : ¬Mapped a) (ip0 : ℕ → ℕ) :
    inetPton AF_INET6 (shorten (colons (parts a))) ip0 = (1, (List.range 16).map a) ∧
      Shortened (groups a 8) (parts a) (shorten (colons (parts a))) := by
  have hparts : parts a = (groups a 8).map (numText 16) := if_neg h
  have hlen : (groups a 8).length = 8 := rfl
  have hlt : ∀ g ∈ groups a 8, g < 65536 := fun g => groups_lt
  -- what remains to be shown of a text that the loop reads
  have hread : ∀ {s : List UInt8} {r : Groups}, pton6Loop 8 0 s none ip0 = some r → r.needV4 = false →
      (∀ k < 8, r.array k = group a k) → readGroups s ip0 = (1, (range 16).map a) := by
    intro s r hr hv4 harray
    rw [readGroups, hr, Option.bind_some, Groups.finish, hv4, groupBytes_eq harray]
    rfl
  rw [hparts, ← joined]
  rcases shorten_joined hlen with ⟨b, n, hrun, htext⟩ | ⟨hno, htext⟩
  · refine ⟨?_, .inl ⟨b, n, hrun, ?_⟩⟩
    · have hsplit := hrun.1.split
      obtain ⟨hn, hbn, -⟩ := hrun.1
      have hL : ((groups a 8).take b).length = b := by
        rw [length_take]
        omega
      have hR : ((groups a 8).drop (b + n)).length = 8 - (b + n) := by rw [length_drop, hlen]
      have hL' : ∀ g ∈ (groups a 8).take b, g < 65536 := fun g hg => groups_lt (mem_of_mem_take hg)
      have hR' : ∀ g ∈ (groups a 8).drop (b + n), g < 65536 := fun g hg => groups_lt (mem_of_mem_drop hg)
      generalize (groups a 8).take b = gs at *
      generalize (groups a 8).drop (b + n) = gs' at *
      obtain ⟨s, hloop⟩ := pton6Loop_gap hL' hR' (by omega) ip0
      have hgroups := hread hloop rfl fun k hk => by
        rw [← getD_groups a hk 0, hsplit]
        exact spread_store (by omega) (by omega) ip0 hk
      rw [htext, ← hgroups]
      -- with no group before them, the text begins with the two colons
      rcases eq_or_ne gs [] with rfl | hne
      · exact inetPton_colons _ _
      · rw [terminated_eq hne, append_assoc, append_assoc]
        apply inetPton_other
        obtain ⟨g, gs, rfl⟩ := exists_cons_of_ne_nil hne
        rw [joined_cons, append_assoc]
        exact (byte_numText (by decide) le_rfl g _).1
    · rw [htext, joined, joined, map_take, map_drop]
  · refine ⟨?_, .inr ⟨hno, htext, ?_⟩⟩
    · have hne : groups a 8 ≠ [] := ne_nil_of_length_eq_add_one hlen
      obtain ⟨s, hloop⟩ := pton6Loop_joined 0 none hne hlt (by rw [hlen]) (.inr (by rw [hlen])) ip0
      have hgroups := hread hloop rfl fun k hk => by
        show store ip0 0 (groups a 8) k = _
        rw [store, if_pos (by rw [hlen]; omega), Nat.sub_zero, getD_groups a hk]
      rw [htext, ← hgroups]
      exact inetPton_other (byte_numText (by decide) le_rfl (group a 0) _).1 ip0
    · rw [htext]
      exact not_infix_joined _

/-- **Addresses are read back from their texts**: `inet_ntop` has room for every address in `INET6_ADDRSTRLEN`
bytes, and `inet_pton` returns the bytes of the address, whatever the array `ip` was before. In the text of an IPv6
address two colons stand for the first of the longest runs of two or more zero groups, and for nothing else. -/
theorem inetPton_inetNtop (arch : Arch) (a : ℕ → UInt8) (ip₀ : ℕ → ℕ) :
    (∃ text, inetNtop arch AF_INET a INET6_ADDRSTRLEN = some (.ok text) ∧ text.length < INET6_ADDRSTRLEN ∧
      inetPton AF_INET text ip₀ = (1, (List.range 4).map a)) ∧
    ∃ text, inetNtop arch AF_INET6 a INET6_ADDRSTRLEN = some (.ok text) ∧ text.length < INET6_ADDRSTRLEN ∧
      inetPton AF_INET6 text ip₀ = (1, (List.range 16).map a) ∧ Shortened (groups a 8) (parts a) text := by
  constructor
  · have hlen : (dotted a 0).length < INET6_ADDRSTRLEN := lt_of_le_of_lt (length_dotted a 0) (by decide)
    refine ⟨dotted a 0, ?_, hlen, ?_⟩
    · rw [inetNtop, if_pos rfl, snprintf_quad, Option.map_some, if_pos hlen]
    · rw [inetPton, pton4_dotted]
      simp
  · obtain ⟨hprinted, hshort⟩ := printed_eq arch a
    have hlen : (shorten (colons (parts a))).length < INET6_ADDRSTRLEN := by
      by_cases hm : Mapped a
      · have := length_dotted a 12
        rw [shorten_mapped hm]
        simp only [length_append, length_cons, length_nil, INET6_ADDRSTRLEN]
        omega
      · have hle := hshort hm
        unfold shorten INET6_ADDRSTRLEN
        simp only
        split
        · simp only [length_append, length_take, length_drop, length_cons, length_nil]
          omega
        · omega
    refine ⟨shorten (colons (parts a)), ?_, hlen, ?_⟩
    · rw [inetNtop, if_neg (by decide), if_pos rfl, hprinted, Option.map_some, if_pos hlen]
    · by_cases hm : Mapped a
      · rw [shorten_mapped hm]
        refine ⟨inetPton_mapped hm ip₀, .inl ⟨0, 5, leftmostLongest_of_mapped hm, ?_⟩⟩
        rw [parts_of_mapped hm]
        rfl
      · exact inetPton_shortened hm ip₀

/-- The text of an address with two runs of two zero groups. -/
example : shorten (joined [1, 0, 0, 2, 3, 0, 0, 4]) = joined [1] ++ [58, 58] ++ joined [2, 3, 0, 0, 4] := by
  decide

end Leblibc.Inet

import Leblibc.String.StrstrFactor

/-!
# The main loop of the two-way search

The main loop moves the needle along the haystack and never passes an occurrence of it: the table of
bytes, a mismatch to the right of the critical position, and a match there each allow a shift before the
end of which the needle does not occur. The letters that are remembered after a shift by the period
match, and the shift by the table may be extended over them.

## Main results

* `Search.loop_isFirst`: the loop ends, with the first occurrence
* `Table.skip_spec`: the shift by the table is safe
* `stringRoom_spec`, `endRoom_spec`: the tests for the end of the haystack
-/

namespace Leblibc.Str

open Leblibc.Lib

/-! ## Comparing the needle -/

section Loop

variable {β : Type} {S : Search β}

/-- The letters of the needle. -/
def Search.needle (S : Search β) : ℕ → β := view S.m S.n

theorem Search.matchRight_spec [DecidableEq β] (hmore : ∀ k ≤ S.l, S.more k = true ↔ k < S.l) {h : ℕ} (bound k : ℕ)
    (hk : k ≤ S.l) (hbound : S.l < bound + k) :
    ∃ k', S.matchRight h bound k = some k' ∧ k ≤ k' ∧ k' ≤ S.l ∧
      (∀ x, k ≤ x → x < k' → S.m (h + x) = S.needle x) ∧
      (k' < S.l → S.m (h + k') ≠ S.needle k') := by
  induction bound generalizing k with
  | zero => omega
  | succ bound ih =>
    by_cases hgo : S.more k = true ∧ S.m (S.n + k) = S.m (h + k)
    · have hlt := (hmore k hk).mp hgo.1
      obtain ⟨k', heq, hle, hle', hmatch, hne⟩ := ih (k + 1) hlt (by omega)
      refine ⟨k', ?_, by omega, hle', fun x hx hx' => ?_, hne⟩
      · rw [Search.matchRight, if_pos hgo, heq]
      · rcases hx.eq_or_lt with rfl | hx
        · exact hgo.2.symm
        · exact hmatch x hx hx'
    · refine ⟨k, ?_, le_refl k, hk, fun x hx hx' => by omega, fun hlt heq => ?_⟩
      · rw [Search.matchRight, if_neg hgo]
      · exact hgo ⟨(hmore k hk).mpr hlt, heq.symm⟩

theorem Search.matchLeft_spec [DecidableEq β] (S : Search β) (h mem k : ℕ) :
    (S.matchLeft h mem k ≤ mem → ∀ x, mem ≤ x → x < k → S.m (h + x) = S.needle x) ∧
      (mem < S.matchLeft h mem k → ∃ x < k, S.m (h + x) ≠ S.needle x) := by
  induction k with
  | zero =>
    refine ⟨fun _ x _ hx => absurd hx (Nat.not_lt_zero x), fun hlt => ?_⟩
    exact absurd hlt (Nat.not_lt_zero mem)
  | succ k ih =>
    rw [Search.matchLeft]
    split_ifs with hgo
    · refine ⟨fun hle x hx hx' => ?_, fun hlt => ?_⟩
      · rcases (Nat.le_of_lt_succ hx').eq_or_lt with rfl | hx'
        · exact hgo.2.symm
        · exact ih.1 hle x hx hx'
      · obtain ⟨x, hx, hne⟩ := ih.2 hlt
        exact ⟨x, by omega, hne⟩
    · refine ⟨fun hle x hx hx' => by omega, fun hlt => ⟨k, Nat.lt_succ_self k, fun heq => ?_⟩⟩
      exact hgo ⟨hlt, heq.symm⟩

/-! ## The loop -/

/-- The first `mem` letters at `h` match, and what is remembered is the needle but for its period. -/
structure Search.Remembers (S : Search β) (h mem : ℕ) : Prop where
  agree : ∀ x < mem, S.m (h + x) = S.needle x
  mem_eq : mem = 0 ∨ mem = S.l - minPeriod S.needle S.l

theorem Search.Remembers.zero (S : Search β) (h : ℕ) : S.Remembers h 0 :=
  ⟨fun x hx => absurd hx (Nat.not_lt_zero x), Or.inl rfl⟩

/-- What a version of the search gives to it, in a haystack of `L` letters at `h₀`; `good` holds of the
ends of the known part of the haystack. -/
structure Search.Ok (S : Search β) (h₀ L c bound : ℕ) (good : ℕ → Prop) : Prop where
  factored : Factored S.arch S.needle S.l S.f c
  length_lt : S.l < 2 ^ S.arch.bits
  length_lt_bound : S.l < bound
  more_iff : ∀ k ≤ S.l, S.more k = true ↔ k < S.l
  good_le : ∀ z, good z → z ≤ h₀ + L
  room_none : ∀ z pos, good z → h₀ + pos ≤ z → S.room z (h₀ + pos) = none → L < pos + S.l
  room_some : ∀ z pos z', good z → h₀ + pos ≤ z → S.room z (h₀ + pos) = some z' →
    good z' ∧ h₀ + pos + S.l ≤ z'
  skip_some : ∀ h mem k, S.Remembers h mem → S.skip h mem = some k →
    0 < k ∧ k ≤ S.l ∧ ∀ s < k, ¬ OccursAt S.m S.needle S.l (h + s)

section Run

variable {h₀ L c bound : ℕ} {good : ℕ → Prop}

theorem Search.occursAt_view (S : Search β) (h₀ q : ℕ) :
    OccursAt (view S.m h₀) S.needle S.l q ↔ OccursAt S.m S.needle S.l (h₀ + q) := by
  simp only [OccursAt, view, add_assoc]

theorem not_occursAt_of_shift {h w : ℕ → β} {l pos k : ℕ} (hnone : ∀ q < pos, ¬ OccursAt h w l q)
    (hsafe : ∀ s < k, ¬ OccursAt h w l (pos + s)) : ∀ q < pos + k, ¬ OccursAt h w l q := by
  intro q hq
  rcases Nat.lt_or_ge q pos with hlt | hge
  · exact hnone q hlt
  · have := hsafe (q - pos) (by omega)
    rwa [Nat.add_sub_cancel' hge] at this

/-- After a match to the right of the critical position the search may move by `p`, and remembers
`mem0` letters. -/
theorem Search.Ok.remembers_mem0 (hS : S.Ok h₀ L c bound good) {h : ℕ}
    (heq : ∀ x, c ≤ x → x < S.l → S.m (h + x) = S.needle x) :
    S.Remembers (h + S.f.p) S.f.mem0 := by
  rcases hS.factored.mem0_eq with hmem | ⟨hmem, hp⟩
  · rw [hmem]
    exact Search.Remembers.zero S _
  · rw [hmem, hp]
    exact ⟨hS.factored.critical.prefix_after_period heq, Or.inr rfl⟩

/-- **The main loop ends with the first occurrence** of the needle. -/
theorem Search.loop_isFirst [DecidableEq β] (hS : S.Ok h₀ L c bound good) {z pos mem : ℕ} (fuel : ℕ) (hz : good z)
    (hpz : h₀ + pos ≤ z) (hrem : S.Remembers (h₀ + pos) mem)
    (hnone : ∀ q < pos, ¬ OccursAt (view S.m h₀) S.needle S.l q) (hfuel : L < fuel + pos) :
    ∃ r, S.loop bound fuel z (h₀ + pos) mem = some (r.map (h₀ + ·)) ∧
      IsFirst (view S.m h₀) L S.needle S.l r := by
  -- each turn moves the needle, so the haystack left bounds the turns
  induction fuel generalizing z pos mem with
  | zero =>
    have := hS.good_le z hz
    omega
  | succ fuel ih =>
    have hcrit := hS.factored.critical
    have hcl := hcrit.lt_length
    have hlen := hS.length_lt
    have hms : S.arch.wrap (S.f.ms + 1) = c := by
      rw [hS.factored.ms_eq]
      exact wrap_sub_one_add Nat.one_pos (by omega)
    rw [Search.loop]
    cases hroom : S.room z (h₀ + pos) with
    | none =>
      -- the needle does not fit into what is left
      have hend := hS.room_none z _ hz hpz hroom
      exact ⟨none, rfl, fun q hq => hnone q (by omega)⟩
    | some z' =>
      obtain ⟨hz', hfit⟩ := hS.room_some z _ z' hz hpz hroom
      have hle := hS.good_le z' hz'
      -- how the loop goes on after a safe shift
      have next : ∀ k mem', 0 < k → k ≤ S.l → S.Remembers (h₀ + pos + k) mem' →
          (∀ s < k, ¬ OccursAt (view S.m h₀) S.needle S.l (pos + s)) →
          ∃ r, S.loop bound fuel z' (h₀ + pos + k) mem' = some (r.map (h₀ + ·)) ∧
            IsFirst (view S.m h₀) L S.needle S.l r := by
        intro k mem' hk hkl hrem' hsafe
        rw [add_assoc] at hrem' ⊢
        exact ih hz' (by omega) hrem' (not_occursAt_of_shift hnone hsafe) (by omega)
      cases hskip : S.skip (h₀ + pos) mem with
      | some k =>
        obtain ⟨hk, hkl, hsafe⟩ := hS.skip_some _ mem k hrem hskip
        refine next k 0 hk hkl (Search.Remembers.zero S _) fun s hs => ?_
        rw [S.occursAt_view, ← add_assoc]
        exact hsafe s hs
      | none =>
        have hmem : mem ≤ S.l := by
          rcases hrem.mem_eq with h | h <;> omega
        obtain ⟨k, hright, hk, hkl, hmatch, hne⟩ :=
          Search.matchRight_spec hS.more_iff bound (max c mem) (by omega)
            (by have := hS.length_lt_bound; omega)
        have hagree : ∀ x, c ≤ x → x < k → view S.m h₀ (pos + x) = S.needle x := by
          intro x hx hxk
          rw [view, ← add_assoc]
          rcases Nat.lt_or_ge x mem with hlt | hge
          · exact hrem.agree x hlt
          · exact hmatch x (by omega) hxk
        simp only [hms, hright]
        by_cases hlt : k < S.l
        · -- a mismatch to the right of the critical position
          rw [if_pos ((hS.more_iff k hkl).mpr hlt), hS.factored.ms_eq,
            sub_sub_one (by omega) (by omega)]
          refine next _ 0 (by omega) (by omega) (Search.Remembers.zero S _) fun s hs => ?_
          apply hcrit.not_occursAt_of_right (by omega) hlt hagree _ (by omega)
          rw [view, ← add_assoc]
          exact hne hlt
        · obtain rfl : k = S.l := by omega
          rw [if_neg (fun hm => hlt ((hS.more_iff _ hkl).mp hm))]
          obtain ⟨hleft, hleft'⟩ := S.matchLeft_spec (h₀ + pos) mem c
          split_ifs with hle'
          · -- the whole needle matches
            refine ⟨some pos, rfl, by omega, fun x hx => ?_, hnone⟩
            rcases Nat.lt_or_ge x c with hxc | hxc
            · rw [view, ← add_assoc]
              rcases Nat.lt_or_ge x mem with hxm | hxm
              · exact hrem.agree x hxm
              · exact hleft hle' x hxm hxc
            · exact hagree x hxc hx
          · -- a mismatch to its left
            have hagree' : ∀ x, c ≤ x → x < S.l → S.m (h₀ + pos + x) = S.needle x := by
              intro x hx hxl
              rw [add_assoc]
              exact hagree x hx hxl
            refine next _ _ hS.factored.p_pos hS.factored.p_le (hS.remembers_mem0 hagree')
              fun s hs => ?_
            rcases Nat.eq_zero_or_pos s with rfl | hspos
            · intro hocc
              obtain ⟨x, hx, hne'⟩ := hleft' (by omega)
              rw [S.occursAt_view] at hocc
              exact hne' (hocc x (by omega))
            · exact hcrit.not_occursAt_of_match hagree hspos
                (lt_of_lt_of_le hs hS.factored.p_le_minPeriod)

theorem Search.Ok.isFirst [DecidableEq β] (hS : S.Ok h₀ L c bound good) {z : ℕ} (fuel : ℕ)
    (hz : good z) (hpz : h₀ ≤ z) (hfuel : L < fuel) :
    ∃ r, S.loop bound fuel z h₀ 0 = some (r.map (h₀ + ·)) ∧
      IsFirst (view S.m h₀) L S.needle S.l r :=
  Search.loop_isFirst hS fuel hz hpz (Search.Remembers.zero S _)
    (fun q hq => absurd hq (Nat.not_lt_zero q)) hfuel

end Run

end Loop

/-! ## The end of the haystack -/

section Room

variable {a : Arch} {h₀ L l : ℕ}

theorem endRoom_spec (hL : L < 2 ^ a.bits) {pos : ℕ} (hpos : pos ≤ L) :
    endRoom a l (h₀ + L) (h₀ + pos) = if L < pos + l then none else some (h₀ + L) := by
  have hsub : a.sub (h₀ + L) (h₀ + pos) = L - pos := by
    rw [Arch.sub_of_le (by omega) (by omega)]
    omega
  have hiff : L - pos < l ↔ L < pos + l := by omega
  simp only [endRoom, hsub, hiff]

variable {β : Type} [Zero β] {m : ℕ → β} {chr0 : ℕ → ℕ → Option ℕ}

/-- The end of a string is what a scan for it finds, if that comes so far. -/
theorem StringAt.chr0_cases (hstr : StringAt m h₀ L)
    (hchr : ∀ z k, ∃ r, chr0 z k = r.map (z + ·) ∧ IsFirst (view m z) k (fun _ => 0) 1 r)
    {z : ℕ} (hz : h₀ ≤ z) (hz' : z ≤ h₀ + L) (k : ℕ) :
    chr0 z k = some (h₀ + L) ∨ chr0 z k = none ∧ z + k ≤ h₀ + L := by
  obtain ⟨r, heq, hfirst⟩ := hchr z k
  have hend : OccursAt (view m z) (fun _ => (0 : β)) 1 (h₀ + L - z) := by
    rw [occursAt_one, Nat.add_sub_cancel' hz']
    exact hstr.end_zero
  cases r with
  | none =>
    right
    refine ⟨heq, ?_⟩
    by_contra hlt
    exact hfirst (h₀ + L - z) (by omega) hend
  | some d =>
    left
    obtain ⟨-, hocc, hbefore⟩ := hfirst
    -- the string has no zero before its end, and the scan stops at the first one
    have hge : h₀ + L ≤ z + d := by
      by_contra hlt
      have hidx : z + d = h₀ + (z + d - h₀) := by omega
      have hzero := occursAt_one.mp hocc
      rw [hidx] at hzero
      exact hstr.ne_zero _ (by omega) hzero
    have hle : z + d ≤ h₀ + L := by
      by_contra hlt
      exact hbefore _ (by omega) hend
    rw [heq, Option.map_some, le_antisymm hle hge]

theorem stringRoom_spec (hstr : StringAt m h₀ L) (hL : L < 2 ^ a.bits)
    (hchr : ∀ z k, ∃ r, chr0 z k = r.map (z + ·) ∧ IsFirst (view m z) k (fun _ => 0) 1 r)
    {z pos : ℕ} (hz : h₀ + pos ≤ z) (hz' : z ≤ h₀ + L) :
    (stringRoom a chr0 l z (h₀ + pos) = none ∧ L < pos + l) ∨
      ∃ z', stringRoom a chr0 l z (h₀ + pos) = some z' ∧ z ≤ z' ∧ z' ≤ h₀ + L ∧ h₀ + pos + l ≤ z' := by
  have hgrow : l ≤ l ||| 63 := Nat.left_le_or
  have hsub : ∀ y, z ≤ y → y ≤ h₀ + L → a.sub y (h₀ + pos) = y - (h₀ + pos) := by
    intro y hy hy'
    exact Arch.sub_of_le (by omega) (by omega)
  unfold stringRoom
  by_cases hlt : a.sub z (h₀ + pos) < l
  · rw [if_pos hlt]
    rcases hstr.chr0_cases hchr (by omega) hz' (l ||| 63) with heq | ⟨heq, hle⟩
    · rw [heq]
      by_cases hlt' : a.sub (h₀ + L) (h₀ + pos) < l
      · left
        refine ⟨if_pos hlt', ?_⟩
        rw [hsub _ hz' (le_refl _)] at hlt'
        omega
      · right
        refine ⟨h₀ + L, if_neg hlt', hz', le_refl _, ?_⟩
        rw [hsub _ hz' (le_refl _)] at hlt'
        omega
    · right
      rw [heq]
      exact ⟨_, rfl, by omega, hle, by omega⟩
  · right
    rw [if_neg hlt]
    rw [hsub z (le_refl z) hz'] at hlt
    exact ⟨z, rfl, le_refl z, hz', by omega⟩

end Room

/-! ## The table of bytes -/

section Bytes

variable {a : Arch} {t : Table} {w : ℕ → UInt8} {l : ℕ}

/-- The table holds the first `l` letters of the needle, with the position after the last of each. -/
structure Table.Covers (a : Arch) (t : Table) (w : ℕ → UInt8) (l : ℕ) : Prop where
  has : ∀ y < l, t.has a (w y) = true
  last : ∀ b, t.has a b = true →
    ∃ y < l, t.shift b.toNat = y + 1 ∧ w y = b ∧ ∀ y', y < y' → y' < l → w y' ≠ b

theorem Table.has_iff (a : Arch) (t : Table) (b : UInt8) :
    t.has a b = true ↔ (t.byteset (b.toNat / a.bits)).testBit (b.toNat % a.bits) = true := by
  rw [Table.has, Nat.one_shiftLeft, Nat.and_two_pow]
  cases (t.byteset (b.toNat / a.bits)).testBit (b.toNat % a.bits) <;> simp

theorem Table.has_add (a : Arch) (t : Table) (b b' : UInt8) (i : ℕ) :
    (t.add a b i).has a b' = true ↔ b' = b ∨ t.has a b' = true := by
  rw [Table.has_iff, Table.has_iff]
  show (Function.update t.byteset (b.toNat / a.bits)
    (t.byteset (b.toNat / a.bits) ||| 1 <<< (b.toNat % a.bits)) (b'.toNat / a.bits)).testBit _ = true ↔ _
  by_cases hword : b'.toNat / a.bits = b.toNat / a.bits
  · rw [hword, Function.update_self, Nat.testBit_or, Nat.one_shiftLeft, Nat.testBit_two_pow,
      Bool.or_eq_true, decide_eq_true_iff, or_comm]
    -- two bytes in the same word and with the same bit are equal
    have hbyte : b.toNat % a.bits = b'.toNat % a.bits ↔ b' = b := by
      constructor
      · intro hmod
        apply UInt8.toNat_inj.mp
        rw [← Nat.mod_add_div' b'.toNat a.bits, ← Nat.mod_add_div' b.toNat a.bits, hword, hmod]
      · rintro rfl
        rfl
    rw [hbyte]
  · rw [Function.update_of_ne hword]
    constructor
    · exact Or.inr
    · rintro (rfl | h)
      · exact absurd rfl hword
      · exact h

theorem Table.Covers.empty (a : Arch) (junk : ℕ → ℕ) (w : ℕ → UInt8) :
    (Table.empty junk).Covers a w 0 where
  has y hy := absurd hy (Nat.not_lt_zero y)
  last b hb := by
    rw [Table.has_iff] at hb
    simp [Table.empty] at hb

theorem Table.Covers.add (ht : t.Covers a w l) (hl : l + 1 < 2 ^ a.bits) :
    (t.add a (w l) l).Covers a w (l + 1) where
  has y hy := by
    rw [Table.has_add]
    rcases (Nat.le_of_lt_succ hy).eq_or_lt with rfl | hlt
    · exact Or.inl rfl
    · exact Or.inr (ht.has y hlt)
  last b hb := by
    by_cases heq : b = w l
    · subst heq
      refine ⟨l, Nat.lt_succ_self l, ?_, rfl, fun y' hy hy' => by omega⟩
      show Function.update t.shift (w l).toNat (a.wrap (l + 1)) (w l).toNat = l + 1
      rw [Function.update_self, Arch.wrap_of_lt hl]
    · rw [Table.has_add] at hb
      obtain ⟨y, hy, hshift, hw, hlast⟩ := ht.last b (hb.resolve_left heq)
      refine ⟨y, by omega, ?_, hw, fun y' hyy' hy' => ?_⟩
      · show Function.update t.shift (w l).toNat (a.wrap (l + 1)) b.toNat = y + 1
        rw [Function.update_of_ne (fun h => heq (UInt8.toNat_inj.mp h)), hshift]
      · rcases (Nat.le_of_lt_succ hy').eq_or_lt with rfl | hlt
        · exact Ne.symm heq
        · exact hlast y' hyy' hlt

/-- **The shift by the table is safe**, also where it is extended over the letters that are
remembered. -/
theorem Table.skip_spec {m : ℕ → UInt8} {h mem k p : ℕ} (ht : t.Covers a w l) (hl : l < 2 ^ a.bits)
    (hpos : 0 < l) (hper : IsPeriod w l p) (hmem : mem = 0 ∨ mem = l - p)
    (hagree : ∀ x < mem, m (h + x) = w x) (hk : t.skip a l (m (h + (l - 1))) mem = some k) :
    0 < k ∧ k ≤ l ∧ ∀ s < k, ¬ OccursAt m w l (h + s) := by
  unfold Table.skip at hk
  by_cases hhas : t.has a (m (h + (l - 1))) = true
  · obtain ⟨y, hy, hshift, hw, hlast⟩ := ht.last _ hhas
    rw [if_pos hhas, hshift, Arch.sub_of_le (by omega) (by omega)] at hk
    by_cases hz : l - (y + 1) = 0
    · rw [if_neg (not_not.mpr hz)] at hk
      cases hk
    · rw [if_pos hz] at hk
      have hsafe : ∀ s < l - (y + 1), ¬ OccursAt m w l (h + s) := by
        intro s hs
        refine not_occursAt_of_last (fun y' hy' hw' => ?_) hs
        by_contra hlt
        exact hlast y' (by omega) hy' hw'
      have hne : m (h + (l - 1)) ≠ w (l - 1) :=
        fun heq => hlast (l - 1) (by omega) (by omega) heq.symm
      split_ifs at hk with hlt
      · rw [Option.some_inj] at hk
        subst hk
        have hmem' : mem = l - p := hmem.resolve_left (by omega)
        rw [hmem'] at hagree ⊢
        exact ⟨by omega, by omega, fun s hs => not_occursAt_of_prefix hper hagree hne hs⟩
      · rw [Option.some_inj] at hk
        subst hk
        exact ⟨by omega, by omega, hsafe⟩
  · rw [if_neg hhas, Option.some_inj] at hk
    subst hk
    refine ⟨hpos, le_refl l, fun s hs => ?_⟩
    -- the byte does not occur in the needle at all
    refine not_occursAt_of_last (j := 0) (fun y hy hw => ?_) (by omega)
    exact absurd (hw ▸ ht.has y hy) hhas

end Bytes

end Leblibc.Str

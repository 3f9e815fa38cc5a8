import Leblibc.Passwd.Getgrent

/-!
# The members of a group

The pieces of the members field that the loops of `__getgrent_a` separate, and when they are the pieces
between the commas.

## Main results

* `splitMembers_spec`: the loop
* `looseSplit_eq_iff`: the pieces are the right ones exactly if no two commas are adjacent
-/

namespace Leblibc.Passwd

open List Function

open Leblibc.Lib

/-! ## The loops before the members -/

variable {l : List UInt8} {b : UInt8} {m : List UInt8}

section Loops

variable {lim : ℕ} {buf : Buf} {s fuel : ℕ}

theorem read_of_le (h : s ≤ lim) : read lim buf s = some (buf s) := if_pos h

theorem strchr_spec {c : UInt8} (hl : Holds buf s (l ++ [c])) (hc : c ∉ l) (h0 : 0 ∉ l)
    (hlim : s + l.length ≤ lim) (hfuel : l.length < fuel) :
    strchr lim buf c fuel s = some (some (s + l.length)) := by
  induction l generalizing s fuel with
  | nil =>
    rcases fuel with _ | fuel
    · omega
    rw [strchr, read_of_le (by omega), hl.1]
    exact if_pos rfl
  | cons b l ih =>
    rcases fuel with _ | fuel
    · omega
    obtain ⟨hb, hl⟩ := hl
    rw [mem_cons, not_or] at hc h0
    rw [length_cons] at hlim hfuel ⊢
    rw [strchr, read_of_le (by omega), hb, some_bind]
    rw [if_neg (Ne.symm hc.1), if_neg (Ne.symm h0.1), ih hl hc.2 h0.2 (by omega) (by omega)]
    congr 2
    omega

theorem atou_spec (hl : Holds buf s (l ++ [b]))
    (hd : ∀ c ∈ l, 48 ≤ c.toNat ∧ c.toNat < 58) (hb : ¬ (48 ≤ b.toNat ∧ b.toNat < 58))
    (hlim : s + l.length ≤ lim) (hfuel : l.length < fuel) (x : ℕ) :
    ∃ y, atou lim buf fuel x s = some (y, s + l.length) := by
  induction l generalizing s fuel x with
  | nil =>
    rcases fuel with _ | fuel
    · omega
    rw [atou, read_of_le (by omega), hl.1]
    exact ⟨x, if_neg hb⟩
  | cons c l ih =>
    rcases fuel with _ | fuel
    · omega
    obtain ⟨hc, hl⟩ := hl
    rw [length_cons] at hlim hfuel ⊢
    obtain ⟨y, hy⟩ := ih hl (fun d h => hd d (mem_cons_of_mem c h))
      (show s + 1 + l.length ≤ lim by omega) (show l.length < fuel by omega) ((10 * x + (c.toNat - 48)) % 2 ^ 32)
    refine ⟨y, ?_⟩
    rw [atou, read_of_le (by omega), hc, some_bind]
    rw [if_pos (hd c (mem_cons_self ..)), hy]
    congr 2
    omega

theorem countMembers_spec (hl : HoldsString buf s l) (hlim : s + l.length ≤ lim) (hfuel : l.length < fuel) (n : ℕ) :
    countMembers lim buf fuel s n = some (n + l.count comma) := by
  obtain ⟨hl, h0⟩ := hl
  induction l generalizing s fuel n with
  | nil =>
    rcases fuel with _ | fuel
    · omega
    rw [countMembers, read_of_le (by omega), hl.1]
    rfl
  | cons b l ih =>
    rcases fuel with _ | fuel
    · omega
    obtain ⟨hb, hl⟩ := hl
    rw [mem_cons, not_or] at h0
    rw [length_cons] at hlim hfuel
    rw [countMembers, read_of_le (by omega), hb, some_bind]
    rw [if_neg (Ne.symm h0.1), ih (by omega) (by omega) _ hl h0.2, count_cons]
    by_cases hcomma : b = comma
    · simp only [hcomma, if_true, beq_self_eq_true]
      congr 1
      omega
    · simp [hcomma]

end Loops

/-! ## The pieces of a field -/

/-- The pieces of a field between its commas; an empty field has none. -/
def pieces (m : List UInt8) : List (List UInt8) := if m = [] then [] else m.splitOn comma

/-- The pieces that the loop separates. -/
def looseSplit : List UInt8 → List (List UInt8)
  | [] => [[]]
  | [b] => if b = comma then [[], []] else [[b]]
  | b :: c :: m =>
    if b = comma then [] :: (looseSplit m).modifyHead (c :: ·)
    else (looseSplit (c :: m)).modifyHead (b :: ·)

/-- The loop goes beyond the end of the field. -/
def overruns : List UInt8 → Bool
  | [] => false
  | [b] => b = comma
  | b :: c :: m => if b = comma then overruns m else overruns (c :: m)

theorem looseSplit_ne_nil (m : List UInt8) : looseSplit m ≠ [] := by
  fun_induction looseSplit m <;> simp_all

theorem overruns_cons_of_ne (hb : b ≠ comma) :
    overruns (b :: m) = overruns m := by
  cases m with
  | nil => simp [overruns, hb]
  | cons c m => simp [overruns, hb]

theorem looseSplit_cons_of_ne (hb : b ≠ comma) :
    looseSplit (b :: m) = (looseSplit m).modifyHead (b :: ·) := by
  cases m with
  | nil => simp [looseSplit, hb]
  | cons c m => simp [looseSplit, hb]

/-- No two commas are adjacent. -/
def Separate (m : List UInt8) : Prop := m.IsChain fun b c => ¬ (b = comma ∧ c = comma)

theorem separate_cons_of_ne (hb : b ≠ comma) :
    Separate (b :: m) ↔ Separate m := by
  unfold Separate
  cases m with
  | nil => exact iff_of_true (isChain_singleton b) isChain_nil
  | cons c m =>
    rw [isChain_cons_cons]
    exact and_iff_right fun h => hb h.1

theorem splitOn_cons_of_ne (hb : b ≠ comma) :
    (b :: m).splitOn comma = (m.splitOn comma).modifyHead (b :: ·) := by
  rw [splitOn_cons_eq_if_modifyHead, if_neg (by simpa using hb)]

theorem splitOn_cons_comma (m : List UInt8) : (comma :: m).splitOn comma = [] :: m.splitOn comma := by
  rw [splitOn_cons_eq_if_modifyHead, if_pos (beq_self_eq_true comma)]

theorem length_splitOn (m : List UInt8) : (m.splitOn comma).length = m.count comma + 1 := by
  induction m with
  | nil => rfl
  | cons b m ih =>
    by_cases hb : b = comma
    · rw [hb, splitOn_cons_comma, length_cons, ih, count_cons_self]
    · rw [splitOn_cons_of_ne hb, length_modifyHead, ih, count_cons_of_ne hb]

theorem modifyHead_cons_inj {l l' : List (List UInt8)} (hl : l ≠ []) (hl' : l' ≠ []) :
    l.modifyHead (b :: ·) = l'.modifyHead (b :: ·) ↔ l = l' := by
  obtain ⟨x, xs, rfl⟩ := exists_cons_of_ne_nil hl
  obtain ⟨y, ys, rfl⟩ := exists_cons_of_ne_nil hl'
  simp

/-- **The pieces are the right ones** exactly if no two commas are adjacent: of two adjacent commas the second
one becomes a part of a piece. -/
theorem looseSplit_eq_iff (m : List UInt8) : looseSplit m = m.splitOn comma ↔ Separate m := by
  fun_induction looseSplit m with
  | case1 => exact iff_of_true (splitOn_nil comma).symm isChain_nil
  | case2 => exact iff_of_true rfl (isChain_singleton _)
  | case3 b hb =>
    rw [splitOn_cons_of_ne hb]
    exact iff_of_true rfl (isChain_singleton _)
  | case4 c m ih =>
    rw [splitOn_cons_comma, List.cons.injEq, eq_self_iff_true, true_and]
    by_cases hc : c = comma
    · subst hc
      refine iff_of_false (fun h => ?_) fun h => (List.isChain_cons_cons.mp h).1 ⟨rfl, rfl⟩
      obtain ⟨x, xs, hx⟩ := exists_cons_of_ne_nil (looseSplit_ne_nil m)
      rw [hx] at h
      cases h
    · rw [splitOn_cons_of_ne hc, modifyHead_cons_inj (looseSplit_ne_nil m) (splitOn_ne_nil _ _), ih,
        ← separate_cons_of_ne hc]
      exact ⟨fun h => List.isChain_cons_cons.mpr ⟨fun h' => hc h'.2, h⟩,
        fun h => (List.isChain_cons_cons.mp h).2⟩
  | case5 b c m hb ih =>
    rw [splitOn_cons_of_ne hb, separate_cons_of_ne hb,
      modifyHead_cons_inj (looseSplit_ne_nil _) (splitOn_ne_nil _ _), ih]

/-- Of a field without adjacent commas, the loop goes beyond the end exactly if it ends in a comma. -/
theorem overruns_iff (hm : Separate m) :
    overruns m = true ↔ m.getLast? = some comma := by
  fun_induction overruns m with
  | case1 => simp
  | case2 b => simp
  | case3 c m ih =>
    obtain ⟨hc, hm⟩ := List.isChain_cons_cons.mp hm
    have hne : c ≠ comma := fun h => hc ⟨rfl, h⟩
    rw [ih ((separate_cons_of_ne hne).mp hm), getLast?_cons_cons]
    cases m with
    | nil => simp [hne]
    | cons d m => rw [getLast?_cons_cons]
  | case4 b c m hb ih =>
    rw [ih ((separate_cons_of_ne hb).mp hm), getLast?_cons_cons]

theorem head_splitOn (m : List UInt8) : (m.splitOn comma).head? = some (m.takeWhile (· ≠ comma)) := by
  induction m with
  | nil => rfl
  | cons b m ih =>
    by_cases hb : b = comma
    · rw [hb]
      rfl
    · rw [splitOn_cons_of_ne hb, head?_modifyHead, ih]
      simp [hb]

theorem head_looseSplit (m : List UInt8) : (looseSplit m).head? = some (m.takeWhile (· ≠ comma)) := by
  induction m with
  | nil => rfl
  | cons b m ih =>
    by_cases hb : b = comma
    · subst hb
      cases m with
      | nil => rfl
      | cons c m => rw [looseSplit]; rfl
    · rw [looseSplit_cons_of_ne hb, head?_modifyHead, ih]
      simp [hb]

/-! ## The loop over the members -/

/-- What the loop makes of the field `m` at `s`, where `i` is the entry of the piece that begins before it:
the strings of the pieces, and the entries of those after the first one. -/
structure Splits (buf : Buf) (mem : Ptrs) (i s : ℕ) (m : List UInt8) (buf' : Buf) (mem' : Ptrs)
    (qs : List ℕ) : Prop where
  frame : ∀ j, j < s ∨ s + m.length ≤ j → buf' j = buf j
  mem_eq : mem' = mem.take (i + 1) ++ qs.map some ++ mem.drop (i + 1 + qs.length)
  strings : ∃ p ps, looseSplit m = p :: ps ∧ HoldsString buf' s p ∧ List.Forall₂ (HoldsString buf') qs ps

theorem store_of_lt {mem : Ptrs} {i : ℕ} {p : Option ℕ} (h : i < mem.length) :
    store mem i p = some (mem.set i p) := if_pos h

theorem entries_set {mem : Ptrs} {i q : ℕ} {qs : List ℕ} (h : i + 1 < mem.length) :
    (mem.set (i + 1) (some q)).take (i + 1 + 1) ++ qs.map some ++
        (mem.set (i + 1) (some q)).drop (i + 1 + 1 + qs.length) =
      mem.take (i + 1) ++ (q :: qs).map some ++ mem.drop (i + 1 + (q :: qs).length) := by
  rw [drop_set_of_lt (by omega), take_succ_eq_append_getElem (by rw [length_set]; exact h),
    take_set_of_le (by omega), getElem_set_self, length_cons]
  simp only [append_assoc, cons_append, nil_append]
  congr 4
  omega

section Split

variable {lim : ℕ} {buf buf' : Buf} {mem mem' : Ptrs} {m : List UInt8} {b c : UInt8} {s i fuel : ℕ}
  {qs : List ℕ}

theorem Splits.cons (h : Splits buf mem i (s + 1) m buf' mem' qs) (hb : b ≠ comma) (hs : buf s = b)
    (h0 : b ≠ 0) : Splits buf mem i s (b :: m) buf' mem' qs := by
  obtain ⟨hframe, hmem, p, ps, hm, hp, hps⟩ := h
  refine ⟨fun j hj => hframe j ?_, hmem, b :: p, ps, ?_, ?_, hps⟩
  · rw [length_cons] at hj
    omega
  · rw [looseSplit_cons_of_ne hb, hm]
    rfl
  · exact HoldsString.cons ((hframe s (Or.inl (Nat.lt_succ_self s))).trans hs) h0 hp

theorem Splits.step (h : Splits (Function.update buf s 0) (mem.set (i + 1) (some (s + 1))) (i + 1) (s + 2) m
    buf' mem' qs) (hs : buf (s + 1) = c) (h0 : c ≠ 0) (hi : i + 1 < mem.length) :
    Splits buf mem i s (comma :: c :: m) buf' mem' ((s + 1) :: qs) := by
  obtain ⟨hframe, hmem, p, ps, hm, hp, hps⟩ := h
  have hc : buf' (s + 1) = c := by
    rw [hframe (s + 1) (Or.inl (by omega)), update_of_ne (by omega), hs]
  have hz : buf' s = 0 := by
    rw [hframe s (Or.inl (by omega)), update_self]
  refine ⟨fun j hj => ?_, hmem.trans (entries_set hi), [], (c :: p) :: ps, ?_, HoldsString.nil hz,
    Forall₂.cons (HoldsString.cons hc h0 hp) hps⟩
  · simp only [length_cons] at hj
    rw [hframe j (by omega), update_of_ne (by omega)]
  · rw [looseSplit, hm]
    rfl

theorem Splits.last (h : Splits (Function.update buf s 0) (mem.set (i + 1) (some (s + 1))) (i + 1) (s + 2) []
    buf' mem' qs) (hs : buf (s + 1) = 0) (hi : i + 1 < mem.length) :
    Splits buf mem i s [comma] buf' mem' ((s + 1) :: qs) := by
  obtain ⟨hframe, hmem, p, ps, hm, hp, hps⟩ := h
  have hc : buf' (s + 1) = 0 := by
    rw [hframe (s + 1) (Or.inl (by omega)), update_of_ne (by omega), hs]
  have hz : buf' s = 0 := by
    rw [hframe s (Or.inl (by omega)), update_self]
  obtain ⟨rfl, rfl⟩ := List.cons.inj hm
  cases hps
  refine ⟨fun j hj => ?_, hmem.trans (entries_set hi), [], [[]], rfl, HoldsString.nil hz,
    Forall₂.cons (HoldsString.nil hc) Forall₂.nil⟩
  rw [length_singleton] at hj
  rw [hframe j (by rw [length_nil]; omega), update_of_ne (by omega)]

/-- **The loop separates the pieces.** If it goes beyond the end of the field, it finds the zero of `getline`
there. -/
theorem splitMembers_spec (hm : HoldsString buf s m) (hlim : s + m.length ≤ lim)
    (hover : overruns m = true → s + m.length + 1 ≤ lim ∧ buf (s + m.length + 1) = 0)
    (hmem : i + m.count comma < mem.length) (hfuel : m.length < fuel) :
    ∃ buf' mem' qs, splitMembers lim fuel buf mem i s = some (buf', mem', i + qs.length) ∧
      Splits buf mem i s m buf' mem' qs := by
  induction fuel generalizing buf mem m s i with
  | zero => omega
  | succ fuel ih =>
    cases m with
    | nil =>
      refine ⟨buf, mem, [], ?_, fun _ _ => rfl, ?_, [], [], rfl, hm, Forall₂.nil⟩
      · rw [splitMembers, read_of_le (by simpa using hlim), hm.1.1]
        rfl
      · simp
    | cons b m =>
      obtain ⟨hs, h0, hm'⟩ := hm.tail
      rw [length_cons] at hlim hfuel hover
      rw [splitMembers, read_of_le (by omega), hs, some_bind]
      rw [if_neg h0]
      by_cases hb : b = comma
      · subst hb
        rw [count_cons_self] at hmem
        rw [if_pos rfl, store_of_lt (by omega), some_bind]
        cases m with
        | nil =>
          obtain ⟨hlim', hend⟩ := hover rfl
          have hnil : HoldsString (Function.update buf s 0) (s + 2) [] :=
            HoldsString.nil (by rw [update_of_ne (by omega)]; exact hend)
          have hroom : i + 1 + ([] : List UInt8).count comma <
              (mem.set (i + 1) (some (s + 1))).length := by
            simpa using hmem
          obtain ⟨buf', mem', qs, hrun, hsplits⟩ := ih hnil (by rw [length_nil]; omega) nofun hroom
            (by rw [length_nil] at *; omega)
          refine ⟨buf', mem', (s + 1) :: qs, ?_, hsplits.last hm'.1.1 (by omega)⟩
          rw [hrun, length_cons]
          congr 3
          omega
        | cons c m =>
          obtain ⟨hs', h0', hm''⟩ := hm'.tail
          simp only [length_cons] at hlim hfuel hover
          have hcount : m.count comma ≤ (c :: m).count comma := count_le_count_cons
          have hrest : HoldsString (Function.update buf s 0) (s + 2) m :=
            ⟨hm''.1.update (Or.inl (by omega)), hm''.2⟩
          have hroom : i + 1 + m.count comma < (mem.set (i + 1) (some (s + 1))).length := by
            rw [length_set]
            omega
          have hover' : overruns m = true → s + 2 + m.length + 1 ≤ lim ∧
              Function.update buf s 0 (s + 2 + m.length + 1) = 0 := by
            intro h
            obtain ⟨h1, h2⟩ := hover h
            rw [update_of_ne (by omega), show s + 2 + m.length + 1 = s + (m.length + 1 + 1) + 1 by omega]
            exact ⟨h1, h2⟩
          obtain ⟨buf', mem', qs, hrun, hsplits⟩ := ih hrest (by omega) hover' hroom (by omega)
          refine ⟨buf', mem', (s + 1) :: qs, ?_, hsplits.step hs' h0' (by omega)⟩
          rw [hrun, length_cons]
          congr 3
          omega
      · rw [if_neg hb]
        rw [count_cons_of_ne hb] at hmem
        have hover' : overruns m = true → s + 1 + m.length + 1 ≤ lim ∧ buf (s + 1 + m.length + 1) = 0 := by
          intro h
          rw [overruns_cons_of_ne hb] at hover
          rw [show s + 1 + m.length = s + (m.length + 1) by omega]
          exact hover h
        obtain ⟨buf', mem', qs, hrun, hsplits⟩ := ih hm' (by omega) hover' hmem (by omega)
        exact ⟨buf', mem', qs, hrun, hsplits.cons hb hs h0⟩

/-- Beyond the end of the field there is nothing to read. -/
theorem splitMembers_overrun (hm : HoldsString buf s m) (hlim : lim = s + m.length)
    (hover : overruns m = true) : splitMembers lim fuel buf mem i s = none := by
  induction fuel generalizing buf mem m s i with
  | zero => rfl
  | succ fuel ih =>
    cases m with
    | nil => cases hover
    | cons b m =>
      obtain ⟨hs, h0, hm'⟩ := hm.tail
      rw [length_cons] at hlim
      rw [splitMembers, read_of_le (by omega), hs, some_bind]
      rw [if_neg h0]
      by_cases hb : b = comma
      · subst hb
        rw [if_pos rfl, Option.bind_eq_bind, Option.bind_eq_none_iff]
        intro mem' _
        cases m with
        | nil =>
          rw [length_nil] at hlim
          cases fuel with
          | zero => rfl
          | succ fuel =>
            rw [splitMembers, read, if_neg (by omega)]
            rfl
        | cons c m =>
          obtain ⟨-, -, hm''⟩ := hm'.tail
          rw [length_cons] at hlim
          exact ih ⟨hm''.1.update (Or.inl (by omega)), hm''.2⟩ (by omega) hover
      · rw [if_neg hb]
        exact ih hm' (by omega) (by rw [overruns_cons_of_ne hb] at hover; exact hover)

theorem length_looseSplit_le (m : List UInt8) : (looseSplit m).length ≤ m.count comma + 1 := by
  fun_induction looseSplit m with
  | case1 => decide
  | case2 => decide
  | case3 b hb => simp
  | case4 c m ih =>
    have : m.count comma ≤ (c :: m).count comma := count_le_count_cons
    rw [length_cons, length_modifyHead, count_cons_self]
    omega
  | case5 b c m hb ih =>
    rw [length_modifyHead, count_cons_of_ne hb]
    exact ih

theorem Splits.length_le (h : Splits buf mem i s m buf' mem' qs) : qs.length ≤ m.count comma := by
  obtain ⟨-, -, p, ps, hm, -, hps⟩ := h
  have := length_looseSplit_le m
  rw [hm, length_cons, ← hps.length_eq] at this
  omega

/-- The pieces of a field as the code separates them. -/
def loosePieces (m : List UInt8) : List (List UInt8) := if m = [] then [] else looseSplit m

theorem length_pieces (m : List UInt8) :
    (pieces m).length = (if m = [] then 0 else 1) + m.count comma := by
  unfold pieces
  split
  · rename_i h
    rw [h]
    rfl
  · rw [length_splitOn, Nat.add_comm]

/-- **The array of the members**: pointers to the pieces, and null pointers after them. -/
theorem members_spec (hm : HoldsString buf s m) (hlim : s + m.length ≤ lim)
    (hover : overruns m = true → s + m.length + 1 ≤ lim ∧ buf (s + m.length + 1) = 0) :
    ∃ buf' ptrs k, members lim buf s (pieces m).length =
        some (buf', ptrs.map some ++ none :: List.replicate k none) ∧
      ptrs.length + k = (pieces m).length ∧ List.Forall₂ (HoldsString buf') ptrs (loosePieces m) := by
  unfold members
  simp only [Option.bind_eq_bind]
  rw [read_of_le (by omega), Option.bind_some]
  cases m with
  | nil =>
    have hz : buf s = 0 := hm.1.1
    rw [if_neg (not_not.mpr hz)]
    exact ⟨buf, [], 0, rfl, rfl, Forall₂.nil⟩
  | cons b m =>
    obtain ⟨hs, h0, -⟩ := hm.tail
    have hlen := length_pieces (b :: m)
    rw [if_neg (cons_ne_nil b m)] at hlen
    rw [hs, if_pos h0, store_of_lt (by rw [length_replicate]; omega), Option.bind_some]
    have hroom : 0 + (b :: m).count comma <
        ((replicate ((pieces (b :: m)).length + 1) none).set 0 (some s)).length := by
      rw [length_set, length_replicate]
      omega
    obtain ⟨buf', mem', qs, hrun, hsplits⟩ :=
      splitMembers_spec hm hlim hover hroom (show (b :: m).length < lim + 2 by omega)
    have hle := hsplits.length_le
    obtain ⟨k, hk⟩ := Nat.exists_eq_add_of_le hle
    have hmem : mem' = (s :: qs).map some ++ none :: replicate k none := by
      have hdrop : 1 + (qs.length + k) - qs.length = k + 1 := by omega
      rw [hsplits.mem_eq, hlen, hk, replicate_succ, set_cons_zero, Nat.add_comm 1 qs.length, drop_succ_cons, drop_replicate, hdrop]
      rfl
    rw [hrun]
    simp only [Option.bind_some]
    rw [store_of_lt (by rw [hmem]; simp)]
    refine ⟨buf', s :: qs, k, ?_, ?_, ?_⟩
    · have hend : (0 + qs.length + 1) - ((s :: qs).map some).length = 0 := by
        rw [length_map, length_cons]
        omega
      rw [hmem, set_append_right _ _ (by rw [length_map, length_cons]; omega), hend]
      rfl
    · rw [length_cons]
      omega
    · obtain ⟨p, ps, hp, hsp, hps⟩ := hsplits.strings
      rw [loosePieces, hp]
      exact Forall₂.cons hsp hps

end Split

end Leblibc.Passwd

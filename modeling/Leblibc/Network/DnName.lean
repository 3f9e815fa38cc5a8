import Leblibc.Base.Machine

/-!
# Domain names in messages

A model of `dn_skipname` in `src/network/dn_skipname.c` and of `__dn_expand` in `src/network/dn_expand.c`. A name
in a message is a sequence of labels, each behind the byte that has its length; it ends with a zero byte, or with a
pointer of two bytes to the rest of the name. The message is the memory from its start on; pointers are offsets.

A name is plain if the bytes where its labels begin are lengths below 64, up to the zero or a byte of 192 or more. The
two functions find the same end of a name exactly if it is plain: a byte from 64 to 191 is the beginning of a pointer for
`__dn_expand` and the length of a label for `dn_skipname`.

## Main results

* `dnSkipname_iff`: skipping and expanding a name agree exactly if it is plain
* `expandChecked_eq`: no check of an access fails
* `dnExpand_agrees`: both results together
-/

namespace Leblibc.Dns

/-! ## The functions -/

/-- The loop of `dn_skipname`. -/
def skipnameLoop (msg : ℕ → UInt8) (eom s : ℕ) : ℕ → ℕ → Option ℕ
  | 0, _ => none
  | fuel + 1, p =>
    if p < eom then
      if msg p = 0 then some (p - s + 1)
      else if msg p ≥ 192 then
        if p + 1 < eom then some (p - s + 2) else none
      else if eom - p < (msg p).toNat + 1 then none
      else skipnameLoop msg eom s fuel (p + ((msg p).toNat + 1))
    else none

/-- `dn_skipname`. -/
def dnSkipname (msg : ℕ → UInt8) (s eom : ℕ) : Option ℕ := skipnameLoop msg eom s (eom - s) s

/-- The bytes from `p` on, `n` of them. -/
def bytesAt (msg : ℕ → UInt8) (p n : ℕ) : List UInt8 := (List.range n).map fun i => msg (p + i)

/-- The offset in a pointer. -/
def pointerAt (msg : ℕ → UInt8) (p : ℕ) : ℕ := (msg p &&& 63).toNat * 256 + (msg (p + 1)).toNat

/-- The loop of `__dn_expand`, with the text so far. `cap` is `dend - dbegin`, and `base` is the start of the
message. -/
def expandLoop (msg : ℕ → UInt8) (eom src cap : ℕ) : ℕ → ℕ → Option ℕ → List UInt8 → Option (ℕ × List UInt8)
  | 0, _, _, _ => none
  | fuel + 1, p, len, out =>
    if msg p &&& 192 ≠ 0 then
      if p + 1 = eom then none
      else if pointerAt msg p ≥ eom then none
      else expandLoop msg eom src cap fuel (pointerAt msg p) (some (len.getD (p + 2 - src))) out
    else if msg p ≠ 0 then
      let out := if out = [] then out else out ++ [46]
      let j := (msg p).toNat
      if j ≥ eom - (p + 1) ∨ j ≥ cap - out.length then none
      else expandLoop msg eom src cap fuel (p + 1 + j) len (out ++ bytesAt msg (p + 1) j)
    else some (len.getD (p + 1 - src), out)

/-- `__dn_expand`: the number of bytes of the name, and its text. -/
def dnExpand (msg : ℕ → UInt8) (eom src : ℕ) (space : ℤ) : Option (ℕ × List UInt8) :=
  if src = eom ∨ space ≤ 0 then none
  else expandLoop msg eom src (if space > 254 then 254 else space.toNat) ((eom + 1) / 2) src none []

/-! ## Accesses -/

/-- An access outside the message or outside the space for the text. -/
inductive Fault where
  | read
  | write
  deriving DecidableEq

/-- A read from the message. -/
def read (msg : ℕ → UInt8) (eom p : ℕ) : Except Fault UInt8 := if p < eom then .ok (msg p) else .error .read

/-- `*dest++ = c`. -/
def put (space : ℤ) (out : List UInt8) (c : UInt8) : Except Fault (List UInt8) :=
  if (out.length : ℤ) < space then .ok (out ++ [c]) else .error .write

/-- `if (dest != dbegin) *dest++ = '.'`. -/
def putDot (space : ℤ) (out : List UInt8) : Except Fault (List UInt8) := if out = [] then .ok out else put space out 46

/-- `while (j--) *dest++ = *p++`. -/
def copyLoop (msg : ℕ → UInt8) (eom : ℕ) (space : ℤ) : ℕ → ℕ → List UInt8 → Except Fault (List UInt8)
  | 0, _, out => .ok out
  | j + 1, p, out => do
    let c ← read msg eom p
    let out ← put space out c
    copyLoop msg eom space j (p + 1) out

/-- The loop of `__dn_expand`, where each access is checked. -/
def expandChecked (msg : ℕ → UInt8) (eom src cap : ℕ) (space : ℤ) :
    ℕ → ℕ → Option ℕ → List UInt8 → Except Fault (Option (ℕ × List UInt8))
  | 0, _, _, _ => .ok none
  | fuel + 1, p, len, out => do
    let c ← read msg eom p
    if c &&& 192 ≠ 0 then
      if p + 1 = eom then .ok none
      else
        let d ← read msg eom (p + 1)
        let j := (c &&& 63).toNat * 256 + d.toNat
        if j ≥ eom then .ok none
        else expandChecked msg eom src cap space fuel j (some (len.getD (p + 2 - src))) out
    else if c ≠ 0 then
      let out ← putDot space out
      if c.toNat ≥ eom - (p + 1) ∨ c.toNat ≥ cap - out.length then .ok none
      else
        let out ← copyLoop msg eom space c.toNat (p + 1) out
        expandChecked msg eom src cap space fuel (p + 1 + c.toNat) len out
    else
      let _ ← put space out 0
      .ok (some (len.getD (p + 1 - src), out))

/-- `__dn_expand`, where each access is checked. -/
def dnExpandChecked (msg : ℕ → UInt8) (eom src : ℕ) (space : ℤ) : Except Fault (Option (ℕ × List UInt8)) :=
  if src = eom ∨ space ≤ 0 then .ok none
  else expandChecked msg eom src (if space > 254 then 254 else space.toNat) space ((eom + 1) / 2) src none []

variable {msg : ℕ → UInt8} {eom src cap : ℕ} {space : ℤ}

theorem read_of_lt {p : ℕ} (h : p < eom) : read msg eom p = .ok (msg p) := if_pos h

theorem put_of_lt {out : List UInt8} (h : (out.length : ℤ) < space) (c : UInt8) : put space out c = .ok (out ++ [c]) :=
  if_pos h

theorem copyLoop_eq {j p : ℕ} {out : List UInt8} (hp : p + j ≤ eom) (hout : (out.length + j : ℤ) ≤ space) :
    copyLoop msg eom space j p out = .ok (out ++ bytesAt msg p j) := by
  induction j generalizing p out with
  | zero => simp [copyLoop, bytesAt]
  | succ j ih =>
    have hbytes : bytesAt msg p (j + 1) = msg p :: bytesAt msg (p + 1) j := by
      rw [bytesAt, List.range_succ_eq_map, List.map_cons, List.map_map]
      exact congrArg _ (List.map_congr_left fun i _ => congrArg msg (by simp only [Nat.succ_eq_add_one]; omega))
    rw [copyLoop, read_of_lt (by omega)]
    show (put space out (msg p) >>= _) = _
    rw [put_of_lt (by push_cast at hout; omega)]
    show copyLoop msg eom space j (p + 1) (out ++ [msg p]) = _
    rw [ih (by omega) (by rw [List.length_append, List.length_singleton]; push_cast at hout ⊢; omega), hbytes,
      List.append_assoc]
    rfl

/-- **The accesses of the loop** are inside the message and inside the space: behind a label there is at least one more
byte of either. -/
theorem expandChecked_eq (hcap : (cap : ℤ) ≤ space) {fuel p : ℕ} {len : Option ℕ} {out : List UInt8} (hp : p < eom)
    (hout : out.length < cap) :
    expandChecked msg eom src cap space fuel p len out = .ok (expandLoop msg eom src cap fuel p len out) := by
  induction fuel generalizing p len out with
  | zero => rfl
  | succ fuel ih =>
    rw [expandChecked, expandLoop, read_of_lt hp]
    show (if msg p &&& 192 ≠ 0 then _ else _) = _
    by_cases hptr : msg p &&& 192 ≠ 0
    · rw [if_pos hptr, if_pos hptr]
      by_cases hend : p + 1 = eom
      · rw [if_pos hend, if_pos hend]
      · rw [if_neg hend, if_neg hend, read_of_lt (show p + 1 < eom by omega)]
        show (if pointerAt msg p ≥ eom then _ else expandChecked _ _ _ _ _ _ (pointerAt msg p) _ _) = _
        by_cases hj : pointerAt msg p ≥ eom
        · rw [if_pos hj, if_pos hj]
        · rw [if_neg hj, if_neg hj, ih (not_le.mp hj) hout]
    rw [if_neg hptr, if_neg hptr]
    by_cases h0 : msg p ≠ 0
    · rw [if_pos h0, if_pos h0]
      have hdot : putDot space out = .ok (if out = [] then out else out ++ [46]) := by
        unfold putDot
        by_cases hnil : out = []
        · rw [if_pos hnil, if_pos hnil]
        · rw [if_neg hnil, if_neg hnil, put_of_lt (by omega)]
      rw [hdot]
      generalize (if out = [] then out else out ++ [46]) = out'
      show (if (msg p).toNat ≥ eom - (p + 1) ∨ (msg p).toNat ≥ cap - out'.length then _ else _) = _
      split_ifs with hfull
      · rw [if_pos hfull]
      · rw [if_neg hfull, copyLoop_eq (by omega) (by omega)]
        refine ih (by omega) ?_
        rw [List.length_append, bytesAt, List.length_map, List.length_range]
        omega
    · rw [if_neg h0, if_neg h0, put_of_lt (by omega)]
      rfl

/-! ## Plain names -/

/-- A name whose labels have lengths below 64, and whose pointer, if it ends with one, begins with a byte of 192 or
more. -/
inductive Plain (msg : ℕ → UInt8) : ℕ → Prop
  | root {p : ℕ} (h : msg p = 0) : Plain msg p
  | pointer {p : ℕ} (h : msg p ≥ 192) : Plain msg p
  | label {p : ℕ} (h0 : msg p ≠ 0) (h : msg p < 64) (hnext : Plain msg (p + 1 + (msg p).toNat)) : Plain msg p

theorem and_192_eq_zero_iff (c : UInt8) : c &&& 192 = 0 ↔ c < 64 := by
  revert c
  decide +kernel

/-- Once the length of a name is known, the rest of the expansion does not change it. -/
theorem expandLoop_len {r : ℕ × List UInt8} :
    ∀ {fuel p : ℕ} {n : ℕ} {out : List UInt8}, expandLoop msg eom src cap fuel p (some n) out = some r → r.1 = n := by
  intro fuel
  induction fuel with
  | zero =>
    intro p n out h
    cases h
  | succ fuel ih =>
    intro p n out h
    rw [expandLoop] at h
    simp only at h
    split_ifs at h
    · exact ih h
    · exact ih h
    · exact ih h
    · obtain rfl := Option.some.inj h
      rfl

theorem le_of_skipnameLoop {fuel p n : ℕ} (hsrc : src ≤ p) (h : skipnameLoop msg eom src fuel p = some n) :
    p - src < n := by
  induction fuel generalizing p with
  | zero => cases h
  | succ fuel ih =>
    rw [skipnameLoop] at h
    split_ifs at h
    · cases h
      omega
    · cases h
      omega
    · have := ih (by omega) h
      omega

/-- **The end of a name**: an expansion that goes on at `p` without a pointer so far ends where skipping from `p` on
ends, exactly if the name is plain from there on. -/
theorem skipnameLoop_iff {fuel fuel' p : ℕ} {out : List UInt8} {r : ℕ × List UInt8} (hsrc : src ≤ p) (hp : p < eom)
    (hfuel : eom - p ≤ fuel') (h : expandLoop msg eom src cap fuel p none out = some r) :
    skipnameLoop msg eom src fuel' p = some r.1 ↔ Plain msg p := by
  induction fuel generalizing fuel' p out with
  | zero => cases h
  | succ fuel ih =>
    obtain ⟨fuel', rfl⟩ := Nat.exists_eq_add_one_of_ne_zero (show fuel' ≠ 0 by omega)
    rw [expandLoop] at h
    rw [skipnameLoop, if_pos hp]
    by_cases hptr : msg p &&& 192 ≠ 0
    · have h0 : msg p ≠ 0 := fun h0 => hptr (by rw [h0]; rfl)
      have h64 : ¬ msg p < 64 := fun hlt => hptr ((and_192_eq_zero_iff _).mpr hlt)
      split_ifs at h with hend hj
      have hlen : r.1 = p + 2 - src := expandLoop_len h
      rw [if_neg h0]
      by_cases hge : msg p ≥ 192
      · rw [if_pos hge, if_pos (by omega)]
        exact iff_of_true (congrArg some (by omega)) (.pointer hge)
      · -- the byte is a length for `dn_skipname`, which goes on behind at least 64 more bytes
        refine iff_of_false (fun hskip => ?_) fun hplain => ?_
        · have h64' : 64 ≤ (msg p).toNat := UInt8.le_iff_toNat_le.mp (UInt8.not_lt.mp h64)
          split_ifs at hskip
          have := le_of_skipnameLoop (by omega) hskip
          omega
        · cases hplain with
          | root h => exact h0 h
          | pointer h => exact hge h
          | label _ h => exact h64 h
    rw [if_neg hptr] at h
    have hlt : msg p < 64 := (and_192_eq_zero_iff _).mp (not_not.mp hptr)
    by_cases h0 : msg p = 0
    · rw [if_neg (not_not.mpr h0)] at h
      rw [if_pos h0]
      cases h
      exact iff_of_true (congrArg some (show p - src + 1 = p + 1 - src by omega)) (.root h0)
    · have hge : ¬ msg p ≥ 192 := fun hge => absurd (UInt8.lt_of_lt_of_le hlt (by decide)) (UInt8.not_lt.mpr hge)
      rw [if_pos h0] at h
      rw [if_neg h0, if_neg hge]
      dsimp only at h
      generalize (if out = [] then out else out ++ [46]) = out' at h
      split_ifs at h with hfull
      rw [if_neg (by omega), show p + ((msg p).toNat + 1) = p + 1 + (msg p).toNat by omega,
        ih (by omega) (by omega) (by omega) h]
      refine ⟨.label h0 hlt, fun hplain => ?_⟩
      cases hplain with
      | root h => exact absurd h h0
      | pointer h => exact absurd h hge
      | label _ _ hnext => exact hnext

/-- **The two functions agree** on where a name ends, exactly if it is plain. -/
theorem dnSkipname_iff {r : ℕ × List UInt8} (hsrc : src ≤ eom) (h : dnExpand msg eom src space = some r) :
    dnSkipname msg src eom = some r.1 ↔ Plain msg src := by
  unfold dnExpand at h
  split at h
  · cases h
  · exact skipnameLoop_iff le_rfl (by omega) le_rfl h

/-- **Skipping and expanding names.** Where `__dn_expand` succeeds, `dn_skipname` finds the same end exactly if the name is
plain; and for every content of the message all accesses of `__dn_expand` are inside the message and the space. -/
theorem dnExpand_agrees (msg : ℕ → UInt8) (eom src : ℕ) (space : ℤ) (hsrc : src ≤ eom) :
    (∀ r, dnExpand msg eom src space = some r → (dnSkipname msg src eom = some r.1 ↔ Plain msg src)) ∧
      dnExpandChecked msg eom src space = .ok (dnExpand msg eom src space) := by
  refine ⟨fun r h => dnSkipname_iff hsrc h, ?_⟩
  unfold dnExpandChecked dnExpand
  by_cases hno : src = eom ∨ space ≤ 0
  · rw [if_pos hno, if_pos hno]
  · rw [if_neg hno, if_neg hno]
    refine expandChecked_eq ?_ (by omega) ?_
    · split <;> omega
    · rw [List.length_nil]
      split <;> omega

/-- The message `3 'w' 'w' 'w' 0`. -/
theorem dnExpand_agrees_www :
    dnSkipname (fun i => [3, 119, 119, 119, 0].getD i 0) 0 5 = some 5 ∧
      dnExpandChecked (fun i => [3, 119, 119, 119, 0].getD i 0) 5 0 254 = .ok (some (5, [119, 119, 119])) := by
  obtain ⟨hagree, hchecked⟩ := dnExpand_agrees (fun i => [3, 119, 119, 119, 0].getD i 0) 5 0 254 (by decide)
  exact ⟨(hagree (5, [119, 119, 119]) rfl).mpr (.label (by decide) (by decide) (.root rfl)), hchecked⟩

/-- The byte 64 is a pointer to the zero byte for `__dn_expand`, and a label that is too long for `dn_skipname`. -/
theorem dnExpand_disagrees :
    dnExpand (fun i => [64, 2, 0].getD i 0) 3 0 254 = some (2, []) ∧
      dnSkipname (fun i => [64, 2, 0].getD i 0) 0 3 = none := by
  decide +kernel

end Leblibc.Dns

import Leblibc.Network.DnName

/-!
# Records of a message

A model of `ns_initparse`, `ns_skiprr` and `ns_parserr` in `src/network/ns_parse.c`. A handle says where the sections
of a message begin and how many records each has, and keeps a position: a section, the index of a record, and a
pointer to that record. A request for a record moves the position forward, or starts again from the front of the
section.

The records of a section are those that a parse of the section finds one after the other. Whatever has been requested
before, a request returns the record of its index, or fails if there is none.

## Main results

* `nsParserr_eq`: a request in a handle that is consistent with the message
* `nsParserr_random_access`: the results of requests in any order
-/

variable {msg : ℕ → UInt8} {eom sect p q start e n : ℕ} {h : Handle}

namespace Leblibc.Dns

open Option

/-! ## The functions -/

/-- `ns_get16`. -/
def get16 (msg : ℕ → UInt8) (p : ℕ) : ℕ := (msg p).toNat * 256 + (msg (p + 1)).toNat

/-- `ns_get32`. -/
def get32 (msg : ℕ → UInt8) (p : ℕ) : ℕ := get16 msg p * 65536 + get16 msg (p + 2)

/-- `ns_s_max`. -/
def nsMax : ℕ := 4

/-- `NS_MAXDNAME`. -/
def NS_MAXDNAME : ℤ := 1025

/-- `ns_msg`, with pointers as offsets into the message. -/
structure Handle where
  eom : ℕ
  id : ℕ
  flags : ℕ
  counts : ℕ → ℕ
  sections : ℕ → Option ℕ
  sect : ℕ
  rrnum : ℤ
  ptr : Option ℕ

/-- `ns_rr`. -/
structure Rr where
  name : List UInt8
  type : ℕ
  rrClass : ℕ
  ttl : ℕ
  rdlength : ℕ
  rdata : Option ℕ
  deriving DecidableEq

/-- A round of the loop of `ns_skiprr`: the place behind the record at `p`. -/
def skipOne (msg : ℕ → UInt8) (eom sect p : ℕ) : Option ℕ :=
  (dnSkipname msg p eom).bind fun r =>
    if r + 4 > eom - p then none
    else
      let p := p + (r + 4)
      if sect ≠ 0 then
        if 6 > eom - p then none
        else
          let r := get16 msg (p + 4)
          if r > eom - (p + 6) then none else some (p + 6 + r)
      else some p

/-- The loop of `ns_skiprr`. -/
def skipLoop (msg : ℕ → UInt8) (eom sect : ℕ) : ℕ → ℕ → Option ℕ
  | 0, p => some p
  | count + 1, p => (skipOne msg eom sect p).bind (skipLoop msg eom sect count)

/-- `ns_skiprr`: the number of bytes of `count` records. -/
def nsSkiprr (msg : ℕ → UInt8) (p eom sect count : ℕ) : Option ℕ := (skipLoop msg eom sect count p).map (· - p)

/-- The loop of `ns_initparse` over the sections: where the sections begin, and where they end. -/
def sectionLoop (msg : ℕ → UInt8) (eom : ℕ) (counts : ℕ → ℕ) : List ℕ → ℕ → (ℕ → Option ℕ) →
    Option (ℕ × (ℕ → Option ℕ))
  | [], p, sections => some (p, sections)
  | i :: is, p, sections =>
    if counts i ≠ 0 then
      (nsSkiprr msg p eom i (counts i)).bind fun r =>
        sectionLoop msg eom counts is (p + r) (Function.update sections i (some p))
    else sectionLoop msg eom counts is p (Function.update sections i none)

/-- `ns_initparse`. -/
def nsInitparse (msg : ℕ → UInt8) (msglen : ℕ) : Option Handle :=
  if msglen < 12 then none
  else
    let counts := fun i => get16 msg (4 + 2 * i)
    (sectionLoop msg msglen counts [0, 1, 2, 3] 12 fun _ => none).bind fun r =>
      if r.1 ≠ msglen then none
      else some ⟨msglen, get16 msg 0, get16 msg 2, counts, r.2, nsMax, -1, none⟩

/-- The position of a handle moved to the front of a section. -/
def Handle.restart (h : Handle) (sect : ℕ) : Handle := { h with sect := sect, rrnum := 0, ptr := h.sections sect }

/-- The position of a handle moved to a record. -/
def Handle.moveTo (h : Handle) (rrnum : ℤ) (p : ℕ) : Handle := { h with rrnum := rrnum, ptr := some p }

/-- The position of a handle moved behind a record that has been read. -/
def Handle.next (h : Handle) (p : ℕ) : Handle :=
  let rrnum := h.rrnum + 1
  if rrnum > h.counts h.sect then
    if h.sect + 1 = nsMax then { h with sect := nsMax, rrnum := -1, ptr := none }
    else { h with sect := h.sect + 1, rrnum := 0, ptr := some p }
  else { h with rrnum := rrnum, ptr := some p }

/-- The part of `ns_parserr` that reads the record at `p`: the record, and the handle. -/
def readRr (msg : ℕ → UInt8) (h : Handle) (p : ℕ) : Option Rr × Handle :=
  match dnExpand msg h.eom p NS_MAXDNAME with
  | none => (none, h)
  | some (r, name) =>
    let p := p + r
    if 4 > h.eom - p then (none, { h with ptr := some p })
    else
      let type := get16 msg p
      let rrClass := get16 msg (p + 2)
      let p := p + 4
      if h.sect ≠ 0 then
        if 6 > h.eom - p then (none, { h with ptr := some p })
        else
          let ttl := get32 msg p
          let rdlength := get16 msg (p + 4)
          let p := p + 6
          if rdlength > h.eom - p then (none, { h with ptr := some p })
          else (some ⟨name, type, rrClass, ttl, rdlength, some p⟩, h.next (p + rdlength))
      else (some ⟨name, type, rrClass, 0, 0, none⟩, h.next p)

/-- The part of `ns_parserr` that moves the position to the record `rrnum` of its section, and reads it. `none` is
undefined behaviour: a null pointer where a record should be. -/
def seekRr (msg : ℕ → UInt8) (h : Handle) (rrnum : ℤ) : Option (Option Rr × Handle) :=
  match h.ptr with
  | none => none
  | some p =>
    if rrnum > h.rrnum then
      match nsSkiprr msg p h.eom h.sect (rrnum - h.rrnum).toNat with
      | none => some (none, h)
      | some r => some (readRr msg (h.moveTo rrnum (p + r)) (p + r))
    else some (readRr msg h p)

/-- `ns_parserr`. -/
def nsParserr (msg : ℕ → UInt8) (h : Handle) (sect rrnum : ℤ) : Option (Option Rr × Handle) :=
  if sect < 0 ∨ sect ≥ nsMax then some (none, h)
  else
    let h := if sect ≠ h.sect then h.restart sect.toNat else h
    let rrnum := if rrnum = -1 then h.rrnum else rrnum
    if rrnum < 0 ∨ rrnum ≥ h.counts h.sect then some (none, h)
    else seekRr msg (if rrnum < h.rrnum then h.restart h.sect else h) rrnum

/-- The results of a sequence of requests. -/
def run (msg : ℕ → UInt8) : Handle → List (ℤ × ℤ) → Option (List (Option Rr))
  | _, [] => some []
  | h, (sect, rrnum) :: rs =>
    (nsParserr msg h sect rrnum).bind fun q => (run msg q.2 rs).map (q.1 :: ·)

/-! ## The records of a section -/

/-- The record at `p`, if its name can be expanded. -/
def parse (msg : ℕ → UInt8) (eom sect p : ℕ) : Option Rr :=
  (dnExpand msg eom p NS_MAXDNAME).map fun q =>
    let p := p + q.1
    if sect = 0 then ⟨q.2, get16 msg p, get16 msg (p + 2), 0, 0, none⟩
    else ⟨q.2, get16 msg p, get16 msg (p + 2), get32 msg (p + 4), get16 msg (p + 8), some (p + 10)⟩

/-- The `n` records from `p` on, one after the other. -/
def records (msg : ℕ → UInt8) (eom sect : ℕ) : ℕ → ℕ → List (Option Rr)
  | 0, _ => []
  | n + 1, p => parse msg eom sect p :: ((skipOne msg eom sect p).map (records msg eom sect n)).getD []

/-- The records of a section of the message. -/
def Handle.section (msg : ℕ → UInt8) (h : Handle) (sect : ℕ) : List (Option Rr) :=
  ((h.sections sect).map (records msg h.eom sect (h.counts sect))).getD []

/-- The result that a request has to have: the record of its index, if there is one. -/
def Handle.answer (msg : ℕ → UInt8) (h : Handle) (sect rrnum : ℤ) : Option Rr :=
  if 0 ≤ sect ∧ sect < nsMax ∧ 0 ≤ rrnum then ((h.section msg sect.toNat)[rrnum.toNat]?).join else none

/-- The names of the message are plain: those of all records of all sections. -/
def Handle.PlainNames (msg : ℕ → UInt8) (h : Handle) : Prop :=
  ∀ sect < nsMax, ∀ start n p, h.sections sect = some start → n < h.counts sect →
    skipLoop msg h.eom sect n start = some p → Plain msg p

/-! ## Skipping -/

theorem skipLoop_add (msg : ℕ → UInt8) (eom sect : ℕ) : ∀ m n p : ℕ,
    skipLoop msg eom sect (m + n) p = (skipLoop msg eom sect m p).bind (skipLoop msg eom sect n) := by
  intro m
  induction m with
  | zero =>
    intro n p
    rw [Nat.zero_add]
    rfl
  | succ m ih =>
    intro n p
    rw [Nat.succ_add, skipLoop, skipLoop, bind_assoc]
    exact congrArg _ (funext fun q => ih n q)

theorem le_of_skipOne (h : skipOne msg eom sect p = some q) : p ≤ q := by
  obtain ⟨r, -, h⟩ := Option.bind_eq_some_iff.mp h
  simp only at h
  split_ifs at h
  · obtain rfl := some.inj h
    omega
  · obtain rfl := some.inj h
    omega

theorem le_of_skipLoop : ∀ {n p q : ℕ},
    skipLoop msg eom sect n p = some q → p ≤ q := by
  intro n
  induction n with
  | zero => exact fun h => (some.inj h).le
  | succ n ih =>
    intro p q h
    obtain ⟨r, hr, h⟩ := Option.bind_eq_some_iff.mp h
    exact (le_of_skipOne hr).trans (ih h)

/-- Where all records of a section can be skipped, so can the first of them. -/
theorem skipLoop_of_lt {count : ℕ} (h : skipLoop msg eom sect count start = some e) (hn : n < count) :
    ∃ p q, skipLoop msg eom sect n start = some p ∧ skipOne msg eom sect p = some q := by
  obtain ⟨m, rfl⟩ : ∃ m, count = n + (m + 1) := ⟨count - n - 1, by omega⟩
  rw [skipLoop_add] at h
  obtain ⟨p, hp, h⟩ := Option.bind_eq_some_iff.mp h
  obtain ⟨q, hq, -⟩ := Option.bind_eq_some_iff.mp h
  exact ⟨p, q, hp, hq⟩

theorem length_records : ∀ {n p e : ℕ},
    skipLoop msg eom sect n p = some e → (records msg eom sect n p).length = n := by
  intro n
  induction n with
  | zero => exact fun _ => rfl
  | succ n ih =>
    intro p e h
    obtain ⟨q, hq, h⟩ := Option.bind_eq_some_iff.mp h
    rw [records, hq]
    exact congrArg (· + 1) (ih h)

/-- A record of the sequence is the one at the place where the records before it have been skipped. -/
theorem records_getElem? {msg : ℕ → UInt8} {eom sect : ℕ} : ∀ {n i p q : ℕ}, i < n →
    skipLoop msg eom sect i p = some q → (records msg eom sect n p)[i]? = some (parse msg eom sect q) := by
  intro n
  induction n with
  | zero => exact fun hi => absurd hi (Nat.not_lt_zero _)
  | succ n ih =>
    intro i p q hi h
    cases i with
    | zero =>
      obtain rfl := some.inj h
      rfl
    | succ i =>
      obtain ⟨p', hp', h⟩ := Option.bind_eq_some_iff.mp h
      rw [records, hp']
      exact ih (Nat.lt_of_succ_lt_succ hi) h

/-! ## The sections -/

/-- What `ns_initparse` has made sure of for a section: it has no records, or they can be skipped. -/
def Sound (msg : ℕ → UInt8) (eom sect count : ℕ) (start : Option ℕ) : Prop :=
  (count = 0 ∧ start = none) ∨ ∃ p e, start = some p ∧ skipLoop msg eom sect count p = some e

theorem sectionLoop_sound {counts : ℕ → ℕ} : ∀ {is : List ℕ} {p : ℕ}
    {sections : ℕ → Option ℕ} {r : ℕ × (ℕ → Option ℕ)}, is.Nodup →
      sectionLoop msg eom counts is p sections = some r →
      (∀ i ∈ is, Sound msg eom i (counts i) (r.2 i)) ∧ ∀ i, i ∉ is → r.2 i = sections i := by
  intro is
  induction is with
  | nil =>
    intro p sections r _ h
    obtain rfl := some.inj h
    exact ⟨by simp, fun _ _ => rfl⟩
  | cons i is ih =>
    intro p sections r hnd h
    obtain ⟨hi, hnd⟩ := List.nodup_cons.mp hnd
    -- the rest of the loop does not touch the section of this round
    have hrest : ∀ (q : ℕ) (start : Option ℕ), Sound msg eom i (counts i) start →
        sectionLoop msg eom counts is q (Function.update sections i start) = some r →
        (∀ j ∈ i :: is, Sound msg eom j (counts j) (r.2 j)) ∧ ∀ j, j ∉ i :: is → r.2 j = sections j := by
      intro q start hstart h
      obtain ⟨hsound, hother⟩ := ih hnd h
      refine ⟨?_, ?_⟩
      · intro j hj
        rcases List.mem_cons.mp hj with rfl | hj
        · rw [hother j hi, Function.update_self]
          exact hstart
        · exact hsound j hj
      · intro j hj
        obtain ⟨hne, hj⟩ := not_or.mp (mt List.mem_cons.mpr hj)
        rw [hother j hj, Function.update_of_ne hne]
    rw [sectionLoop] at h
    split at h
    · obtain ⟨k, hk, h⟩ := Option.bind_eq_some_iff.mp h
      obtain ⟨e, he, -⟩ := Option.map_eq_some_iff.mp hk
      exact hrest _ _ (.inr ⟨p, e, rfl, he⟩) h
    · rename_i h0
      exact hrest _ _ (.inl ⟨not_not.mp h0, rfl⟩) h

/-- **`ns_initparse`** succeeds only if the records of every section can be skipped. -/
theorem nsInitparse_sound {msglen : ℕ} (hinit : nsInitparse msg msglen = some h) :
    h.sect = nsMax ∧ ∀ sect < nsMax, Sound msg h.eom sect (h.counts sect) (h.sections sect) := by
  unfold nsInitparse at hinit
  split at hinit
  · cases hinit
  · obtain ⟨r, hr, hinit⟩ := Option.bind_eq_some_iff.mp hinit
    split at hinit
    · cases hinit
    · obtain rfl := some.inj hinit
      refine ⟨rfl, fun sect hsect => ?_⟩
      refine (sectionLoop_sound (by decide) hr).1 sect ?_
      unfold nsMax at hsect
      simp only [List.mem_cons]
      omega

/-- The sequence of the records of a section has as many as the header says. -/
theorem length_section
    (hs : Sound msg h.eom sect (h.counts sect) (h.sections sect)) : (h.section msg sect).length = h.counts sect := by
  rcases hs with ⟨hcount, hstart⟩ | ⟨start, e, hstart, he⟩
  · rw [Handle.section, hstart, hcount]
    rfl
  · rw [Handle.section, hstart]
    exact length_records he

/-! ## One request -/

theorem lt_of_dnSkipname {r : ℕ} (h : dnSkipname msg p eom = some r) : p < eom := by
  by_contra hc
  rw [dnSkipname, show eom - p = 0 by omega] at h
  cases h

/-- **Reading a record** that can be skipped, and whose name is plain: it is the record at its place, and the
position moves behind it, unless the name cannot be expanded. -/
theorem readRr_eq (hskip : skipOne msg h.eom h.sect p = some q) (hplain : Plain msg p) :
    readRr msg h p = (parse msg h.eom h.sect p, if (parse msg h.eom h.sect p).isSome then h.next q else h) := by
  obtain ⟨r, hr, hskip⟩ := Option.bind_eq_some_iff.mp hskip
  unfold readRr parse
  cases hexp : dnExpand msg h.eom p NS_MAXDNAME with
  | none => rfl
  | some e =>
    have hlen := (dnSkipname_iff (lt_of_dnSkipname hr).le hexp).mpr hplain
    obtain rfl := some.inj (hr.symm.trans hlen)
    -- the tests of the size have been made when the record was skipped
    simp only at hskip
    split_ifs at hskip with h4 hsect h6 hrd
    · obtain rfl := some.inj hskip
      have h4' : ¬4 > h.eom - (p + e.1) := by omega
      have hadd : p + (e.1 + 4) = p + e.1 + 4 := by omega
      rw [hadd] at h6 hrd ⊢
      simp only [if_neg h4', if_pos hsect, if_neg h6, if_neg hrd, map_some, if_neg hsect, isSome_some,
        if_true]
    · obtain rfl := some.inj hskip
      have h4' : ¬4 > h.eom - (p + e.1) := by omega
      have hadd : p + (e.1 + 4) = p + e.1 + 4 := by omega
      rw [hadd]
      simp only [if_neg h4', if_neg hsect, map_some, if_pos (not_not.mp hsect), if_true, isSome_some]

/-- A handle whose position is consistent with the message of the handle `h₀`. -/
structure Consistent (msg : ℕ → UInt8) (h₀ h : Handle) : Prop where
  eom : h.eom = h₀.eom
  counts : h.counts = h₀.counts
  sections : h.sections = h₀.sections
  position : h.sect < nsMax → ∃ n : ℕ, h.rrnum = n ∧ n ≤ h.counts h.sect ∧
    ∀ start, h.sections h.sect = some start → ∃ p, skipLoop msg h.eom h.sect n start = some p ∧ h.ptr = some p

namespace Consistent

variable {msg : ℕ → UInt8} {h₀ h : Handle}

theorem restart (hc : Consistent msg h₀ h) (sect : ℕ) : Consistent msg h₀ (h.restart sect) where
  eom := hc.eom
  counts := hc.counts
  sections := hc.sections
  position _ := ⟨0, rfl, Nat.zero_le _, fun start hstart => ⟨start, rfl, hstart⟩⟩

theorem moveTo (hc : Consistent msg h₀ h) (hle : n ≤ h.counts h.sect)
    (hstart : h.sections h.sect = some start) (hp : skipLoop msg h.eom h.sect n start = some p) :
    Consistent msg h₀ (h.moveTo n p) where
  eom := hc.eom
  counts := hc.counts
  sections := hc.sections
  position _ := by
    refine ⟨n, rfl, hle, fun start' hstart' => ⟨p, ?_, rfl⟩⟩
    obtain rfl := some.inj (hstart.symm.trans hstart')
    exact hp

/-- The place behind a record is a consistent position. -/
theorem next (hc : Consistent msg h₀ h) (hn : h.rrnum = n) (hlt : n < h.counts h.sect)
    (hstart : h.sections h.sect = some start) (hp : skipLoop msg h.eom h.sect n start = some p)
    (hq : skipOne msg h.eom h.sect p = some q) : Consistent msg h₀ (h.next q) := by
  have hnext : h.next q = { h with rrnum := h.rrnum + 1, ptr := some q } := by
    have hle : ¬h.rrnum + 1 > h.counts h.sect := by omega
    exact if_neg hle
  rw [hnext]
  refine ⟨hc.eom, hc.counts, hc.sections, fun _ => ⟨n + 1, ?_, hlt, ?_⟩⟩
  · show h.rrnum + 1 = ((n + 1 : ℕ) : ℤ)
    omega
  · intro start' hstart'
    obtain rfl := some.inj (hstart.symm.trans hstart')
    refine ⟨q, ?_, rfl⟩
    rw [skipLoop_add, hp, bind_some, skipLoop, hq]
    rfl

end Consistent

section Request

variable {msg : ℕ → UInt8} {h₀ h : Handle}

theorem readRr_consistent (hplain : h₀.PlainNames msg) (hc : Consistent msg h₀ h) (hsect : h.sect < nsMax)
    (hn : h.rrnum = n) (hlt : n < h.counts h.sect) (hstart : h.sections h.sect = some start)
    (he : skipLoop msg h.eom h.sect (h.counts h.sect) start = some e)
    (hp : skipLoop msg h.eom h.sect n start = some p) :
    (readRr msg h p).1 = parse msg h₀.eom h.sect p ∧ Consistent msg h₀ (readRr msg h p).2 := by
  obtain ⟨p', q, hp', hq⟩ := skipLoop_of_lt he hlt
  obtain rfl := some.inj (hp.symm.trans hp')
  have hname : Plain msg p := by
    rw [hc.eom] at hp
    rw [hc.counts] at hlt
    rw [hc.sections] at hstart
    exact hplain h.sect hsect start n p hstart hlt hp
  rw [readRr_eq hq hname]
  refine ⟨by rw [hc.eom], ?_⟩
  split
  · exact hc.next hn hlt hstart hp hq
  · exact hc

/-- Moving the position forward and reading the record there. -/
theorem seekRr_eq (hplain : h₀.PlainNames msg) (hc : Consistent msg h₀ h) (hsect : h.sect < nsMax)
    (hge : h.rrnum ≤ n) (hlt : n < h.counts h.sect) (hstart : h.sections h.sect = some start)
    (he : skipLoop msg h.eom h.sect (h.counts h.sect) start = some e)
    (hp : skipLoop msg h.eom h.sect n start = some p) :
    ∃ h', seekRr msg h n = some (parse msg h₀.eom h.sect p, h') ∧ Consistent msg h₀ h' := by
  obtain ⟨k, hk, -, hpos⟩ := hc.position hsect
  obtain ⟨p0, hp0, hptr⟩ := hpos start hstart
  unfold seekRr
  rw [hptr]
  by_cases hgt : (n : ℤ) > h.rrnum
  · -- the records between the position and the request are skipped
    obtain ⟨d, rfl⟩ : ∃ d, n = k + d := ⟨n - k, by omega⟩
    have hd : ((k + d : ℕ) - h.rrnum : ℤ).toNat = d := by omega
    have hskip : skipLoop msg h.eom h.sect d p0 = some p := by
      rwa [skipLoop_add, hp0] at hp
    have hadd : p0 + (p - p0) = p := Nat.add_sub_cancel' (le_of_skipLoop hskip)
    have hmove := hc.moveTo hlt.le hstart hp
    have hread := readRr_consistent hplain hmove hsect rfl hlt hstart he hp
    refine ⟨(readRr msg (h.moveTo (k + d : ℕ) p) p).2, ?_, hread.2⟩
    simp only [if_pos hgt, nsSkiprr, hd, hskip, map_some, hadd]
    exact congrArg (fun r => some (r, _)) hread.1
  · obtain rfl : n = k := by omega
    obtain rfl := some.inj (hp.symm.trans hp0)
    have hread := readRr_consistent hplain hc hsect hk hlt hstart he hp
    refine ⟨(readRr msg h p).2, ?_, hread.2⟩
    simp only [if_neg hgt]
    rw [← hread.1]

/-- **A request** in a consistent handle: the answer, and a handle that is consistent again. -/
theorem nsParserr_eq (hsound : ∀ sect < nsMax, Sound msg h₀.eom sect (h₀.counts sect) (h₀.sections sect))
    (hplain : h₀.PlainNames msg) (hc : Consistent msg h₀ h) (sect : ℤ) {rrnum : ℤ} (hne : rrnum ≠ -1) :
    ∃ h', nsParserr msg h sect rrnum = some (h₀.answer msg sect rrnum, h') ∧ Consistent msg h₀ h' := by
  unfold nsParserr
  by_cases hsect : sect < 0 ∨ sect ≥ nsMax
  · refine ⟨h, ?_, hc⟩
    rw [if_pos hsect, Handle.answer, if_neg (by omega)]
  · rw [if_neg hsect]
    -- the handle is at the section of the request
    obtain ⟨s, hs⟩ : ∃ s : ℕ, sect = s := ⟨sect.toNat, by omega⟩
    obtain rfl := hs
    have hlt : s < nsMax := by omega
    obtain ⟨h1, hh1, hc1, hs1⟩ : ∃ h1, (if (s : ℤ) ≠ h.sect then h.restart (s : ℤ).toNat else h) = h1 ∧
        Consistent msg h₀ h1 ∧ h1.sect = s := by
      by_cases heq : (s : ℤ) ≠ h.sect
      · exact ⟨_, if_pos heq, hc.restart _, rfl⟩
      · exact ⟨_, if_neg heq, hc, by omega⟩
    simp only [hh1, if_neg hne]
    by_cases hr : rrnum < 0 ∨ rrnum ≥ h1.counts h1.sect
    · refine ⟨h1, ?_, hc1⟩
      rw [if_pos hr, Handle.answer]
      split
      · have hlen := length_section (hsound s hlt)
        rw [hs1, hc1.counts] at hr
        rw [List.getElem?_eq_none (by rw [Int.toNat_natCast]; omega)]
        rfl
      · rfl
    · rw [if_neg hr]
      obtain ⟨n, hn⟩ : ∃ n : ℕ, rrnum = n := ⟨rrnum.toNat, by omega⟩
      obtain rfl := hn
      have hcount : n < h1.counts h1.sect := by omega
      obtain ⟨start, e, hstart, he⟩ : ∃ start e, h1.sections h1.sect = some start ∧
          skipLoop msg h1.eom h1.sect (h1.counts h1.sect) start = some e := by
        have hsnd := hsound s hlt
        rw [← hc1.eom, ← hc1.counts, ← hc1.sections, ← hs1] at hsnd
        rcases hsnd with ⟨hzero, -⟩ | hsnd
        · omega
        · exact hsnd
      obtain ⟨p, -, hp, -⟩ := skipLoop_of_lt he hcount
      have hanswer : h₀.answer msg s n = parse msg h₀.eom h1.sect p := by
        have hget := records_getElem? hcount hp
        rw [hc1.eom, hc1.counts, hs1] at hget
        rw [hc1.sections, hs1] at hstart
        rw [Handle.answer, if_pos ⟨Int.natCast_nonneg s, by omega, Int.natCast_nonneg n⟩, Int.toNat_natCast,
          Int.toNat_natCast, Handle.section, hstart, map_some, getD_some, hget, hs1]
        rfl
      rw [hanswer]
      -- a request behind the position starts again from the front
      split_ifs with hback
      · exact seekRr_eq hplain (hc1.restart _) (hs1 ▸ hlt) (Int.natCast_nonneg n) hcount hstart he hp
      · exact seekRr_eq hplain hc1 (hs1 ▸ hlt) (not_lt.mp hback) hcount hstart he hp

end Request

/-! ## Requests in any order -/

theorem run_eq {h₀ : Handle} (hsound : ∀ sect < nsMax, Sound msg h₀.eom sect (h₀.counts sect) (h₀.sections sect))
    (hplain : h₀.PlainNames msg) : ∀ (reqs : List (ℤ × ℤ)) {h : Handle}, Consistent msg h₀ h →
      (∀ r ∈ reqs, r.2 ≠ -1) → run msg h reqs = some (reqs.map fun r => h₀.answer msg r.1 r.2) := by
  intro reqs
  induction reqs with
  | nil => exact fun _ _ => rfl
  | cons r reqs ih =>
    intro h hc hne
    obtain ⟨h', heq, hc'⟩ := nsParserr_eq hsound hplain hc r.1 (hne r List.mem_cons_self)
    rw [run, heq, bind_some, ih hc' fun q hq => hne q (List.mem_cons_of_mem _ hq)]
    rfl

/-- **Random access**: in a message that `ns_initparse` accepts and whose names are plain, each of a sequence of
requests has the record that the sequence of the records of its section has at its index, whatever was requested
before; a request for another index or section fails, and there are as many records as the header says. -/
theorem nsParserr_random_access {msg : ℕ → UInt8} {msglen : ℕ} {h : Handle}
    (hinit : nsInitparse msg msglen = some h) (hplain : h.PlainNames msg) (reqs : List (ℤ × ℤ))
    (hne : ∀ r ∈ reqs, r.2 ≠ -1) :
    run msg h reqs = some (reqs.map fun r => h.answer msg r.1 r.2) ∧
      ∀ sect < nsMax, (h.section msg sect).length = h.counts sect := by
  obtain ⟨hsect, hsound⟩ := nsInitparse_sound hinit
  have hc : Consistent msg h h := ⟨rfl, rfl, rfl, fun hlt => absurd hsect hlt.ne⟩
  exact ⟨run_eq hsound hplain reqs hc hne, fun sect hlt => length_section (hsound sect hlt)⟩

/-- A message with one question, for the root. -/
def rootQuestion (i : ℕ) : UInt8 := ([0, 0, 0, 0, 0, 1, 0, 0, 0, 0, 0, 0, 0, 0, 2, 0, 1] : List UInt8).getD i 0

theorem nsInitparse_rootQuestion : (nsInitparse rootQuestion 17).isSome = true := by decide

theorem plainNames_rootQuestion :
    ((nsInitparse rootQuestion 17).get nsInitparse_rootQuestion).PlainNames rootQuestion := by
  intro sect hsect start n p hstart hn hp
  have hcounts : ∀ i < nsMax, ((nsInitparse rootQuestion 17).get nsInitparse_rootQuestion).counts i =
      if i = 0 then 1 else 0 := by decide
  rw [hcounts sect hsect] at hn
  split at hn
  · rename_i h0
    obtain rfl : n = 0 := by omega
    rw [h0] at hstart
    obtain rfl := some.inj hstart
    obtain rfl := some.inj hp
    exact .root rfl
  · exact absurd hn (Nat.not_lt_zero n)

/-- The question is found again after a request for one that is not there. -/
theorem nsParserr_random_access_question :
    run rootQuestion ((nsInitparse rootQuestion 17).get nsInitparse_rootQuestion) [(0, 0), (0, 1), (0, 0)] =
      some [some ⟨[], 2, 1, 0, 0, none⟩, none, some ⟨[], 2, 1, 0, 0, none⟩] :=
  (nsParserr_random_access (some_get nsInitparse_rootQuestion).symm plainNames_rootQuestion
    [(0, 0), (0, 1), (0, 0)] (by decide)).1.trans (by decide)

end Leblibc.Dns

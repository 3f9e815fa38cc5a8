import Leblibc.Lib.Buffer
import Leblibc.Base.Ints
import Leblibc.Network.DnCompCorrect
import Leblibc.Network.NsParse

/-!
# Queries

A model of `__res_mkquery` in `src/network/res_mkquery.c`. The name is copied behind the header as it is, and a loop
puts the length of each label where the dot before it stands. The number that the clock gives for the query is an
argument.

## Main results

* `labelLoop_spec`: the loop makes a segment of the name, or finds a label that is empty or too long
* `resMkquery_iff`: when a query is made, and what it consists of
-/

namespace Leblibc.Dns

open List Function

open Lib (store Holds)

/-! ## The function -/

/-- `for (j=i; q[j] && q[j] != '.'; j++);` -/
def labelEnd (q : ℕ → UInt8) : ℕ → ℕ → Option ℕ
  | 0, _ => none
  | fuel + 1, j => if q j ≠ 0 ∧ q j ≠ 46 then labelEnd q fuel (j + 1) else some j

/-- The loop over the labels. The inner `none` is the result `-1`. -/
def labelLoop : ℕ → (ℕ → UInt8) → ℕ → Option (Option ((ℕ → UInt8) × ℕ))
  | 0, _, _ => none
  | fuel + 1, q, i =>
    if q i = 0 then some (some (q, i))
    else
      (labelEnd q 280 i).bind fun j =>
        if ((j : ℤ) - i - 1) % 2 ^ 32 > 62 then some none
        else labelLoop fuel (Function.update q (i - 1) (UInt8.ofNat (j - i))) (j + 1)

/-- The conversion to `unsigned`. -/
def unsigned (x : ℤ) : ℤ := x % 2 ^ 32

/-- The last assignments: behind the name `q[i+1] = type` and `q[i+3] = class`, and the number of the query. -/
def finished (q : ℕ → UInt8) (i : ℕ) (type cls hi lo : UInt8) : ℕ → UInt8 :=
  Function.update (Function.update (Function.update (Function.update q (i + 1) type) (i + 3) cls) 0 hi) 1 lo

/-- `__res_mkquery`: the length of the query, and the array `q`. The inner `none` is the result `-1`. -/
def resMkquery (op : ℤ) (dname : List UInt8) (cls type buflen : ℤ) (id : ℕ) : Option (Option (ℕ × (ℕ → UInt8))) :=
  let l := min dname.length 255
  let l := if l ≠ 0 ∧ dname.getD (l - 1) 0 = 46 then l - 1 else l
  if l ≠ 0 ∧ dname.getD (l - 1) 0 = 46 then some none
  else
    let n := 17 + l + if l = 0 then 0 else 1
    if l > 253 ∨ buflen < n ∨ unsigned op > 15 ∨ unsigned cls > 255 ∨ unsigned type > 255 then some none
    else
      let q : ℕ → UInt8 := fun _ => 0
      let q := Function.update q 2 (UInt8.ofNat (op * 8 + 1).toNat)
      let q := Function.update q 3 32
      let q := Function.update q 5 1
      let q := store q 13 (dname.take l)
      (labelLoop 280 q 13).map <| Option.map fun r =>
        (n, finished r.1 r.2 (UInt8.ofNat type.toNat) (UInt8.ofNat cls.toNat) (UInt8.ofNat (id / 256)) (UInt8.ofNat id))

/-! ## Labels -/

/-- The name without a dot at its end. -/
def trimmed (dname : List UInt8) : List UInt8 := if dname.getLast? = some 46 then dname.dropLast else dname

variable {lab r : List UInt8} {labs : List (List UInt8)} {q : ℕ → UInt8} {i fuel : ℕ}

theorem Labels.nameText_eq_nil (h : Labels labs) : nameText labs = [] ↔ labs = [] :=
  ⟨fun hnil => by_contra fun hne => nameText_ne_nil h hne hnil, fun hnil => by rw [hnil]; rfl⟩

/-- The first label of a text, and what is behind the dot after it. -/
def cut (r : List UInt8) : List UInt8 × List UInt8 := (r.takeWhile (· ≠ 46), (r.dropWhile (· ≠ 46)).drop 1)

theorem cut_nameText (h : (46 : UInt8) ∉ lab) (labs : List (List UInt8)) :
    cut (nameText (lab :: labs)) = (lab, nameText labs) := by
  have hpos : ∀ c ∈ lab, decide (c ≠ 46) = true := fun c hc => decide_eq_true fun h' => h (h' ▸ hc)
  unfold cut
  rcases eq_or_ne labs [] with rfl | hlabs
  · have hself : nameText [lab] = lab := rfl
    rw [hself, List.takeWhile_eq_self_iff.mpr hpos, List.dropWhile_eq_nil_iff.mpr hpos]
    rfl
  · rw [nameText_cons lab hlabs, takeWhile_append_of_pos hpos, dropWhile_append_of_pos hpos,
      takeWhile_cons_of_neg (by simp), append_nil]
    rfl

theorem not_mem_cut (r : List UInt8) : (46 : UInt8) ∉ (cut r).1 := fun h => by
  have := mem_takeWhile_imp h
  simp at this

/-- A text that does not end with a dot is its first label, or has more behind a dot. -/
theorem cut_cases (hlast : r.getLast? ≠ some 46) :
    ((cut r).2 = [] ∧ r = (cut r).1) ∨ ((cut r).2 ≠ [] ∧ r = (cut r).1 ++ 46 :: (cut r).2) := by
  have hsplit : (cut r).1 ++ r.dropWhile (· ≠ 46) = r := takeWhile_append_dropWhile
  cases hdrop : r.dropWhile (· ≠ 46) with
  | nil =>
    rw [hdrop, append_nil] at hsplit
    exact .inl ⟨by rw [cut, hdrop]; rfl, hsplit.symm⟩
  | cons c t =>
    have hc : c = 46 := by
      have := head_dropWhile_not (p := fun c : UInt8 => decide (c ≠ 46))
        (by rw [hdrop]; exact cons_ne_nil _ _)
      simp only [hdrop, head_cons] at this
      simpa using this
    have hcut : (cut r).2 = t := by rw [cut, hdrop]; rfl
    rw [hdrop, hc] at hsplit
    rw [hcut]
    refine .inr ⟨fun hnil => hlast ?_, hsplit.symm⟩
    rw [← hsplit, hnil, getLast?_append]
    rfl

theorem nameText_of_cut (hlast : r.getLast? ≠ some 46) (hlabs : Labels labs) (h : nameText labs = (cut r).2) :
    nameText ((cut r).1 :: labs) = r := by
  rcases cut_cases hlast with ⟨hnil, hr⟩ | ⟨hne, hr⟩
  · rw [hnil, hlabs.nameText_eq_nil] at h
    rw [h]
    exact hr.symm
  · rw [nameText_cons _ fun hnil => hne (by rw [← h, hnil]; rfl), h]
    exact hr.symm

/-! ## The loop -/

theorem labelEnd_eq (hlab : Holds q i lab) (hbytes : ∀ c ∈ lab, c ≠ 0 ∧ c ≠ 46)
    (hend : ¬ (q (i + lab.length) ≠ 0 ∧ q (i + lab.length) ≠ 46)) (hfuel : lab.length < fuel) :
    labelEnd q fuel i = some (i + lab.length) := by
  rcases fuel with _ | fuel
  · omega
  induction lab generalizing i fuel with
  | nil => exact if_neg hend
  | cons c lab ih =>
    obtain ⟨hc, hlab⟩ := hlab
    rw [length_cons] at hfuel
    rw [length_cons, ← Nat.add_assoc, Nat.add_right_comm] at hend ⊢
    rcases fuel with _ | fuel
    · omega
    rw [labelEnd, hc, if_pos (hbytes c mem_cons_self)]
    exact ih hlab (fun c hc => hbytes c (mem_cons_of_mem _ hc)) hend fuel (by omega)

/-- A text in the array that the loop has come to. -/
structure Text (q : ℕ → UInt8) (i : ℕ) (r : List UInt8) : Prop where
  pos : 1 ≤ i
  text : Holds q i r
  zero : ∀ j, i + r.length ≤ j → q j = 0
  first : r = [] → q (i - 1) = 0
  bytes : (0 : UInt8) ∉ r
  last : r.getLast? ≠ some 46

/-- The index behind the text, when the loop ends. -/
def textEnd (i : ℕ) (r : List UInt8) : ℕ := i + r.length + if r = [] then 0 else 1

/-- Behind the first label. -/
theorem Text.next (h : Text q i r) (c : UInt8) :
    Text (Function.update q (i - 1) c) (i + (cut r).1.length + 1) (cut r).2 ∧ Holds q i (cut r).1 ∧
      ¬ (q (i + (cut r).1.length) ≠ 0 ∧ q (i + (cut r).1.length) ≠ 46) ∧
      (r ≠ [] → textEnd (i + (cut r).1.length + 1) (cut r).2 = textEnd i r) := by
  obtain ⟨hpos, htext, hzero, -, hbytes, hlast⟩ := h
  have hupd (j : ℕ) (hj : i ≤ j) : Function.update q (i - 1) c j = q j := update_of_ne (by omega) _ _
  unfold textEnd
  rcases cut_cases hlast with ⟨hnil, hr⟩ | ⟨hne, hr⟩
  · rw [hnil, ← hr]
    have hend : q (i + r.length) = 0 := hzero _ le_rfl
    refine ⟨⟨by omega, trivial, fun j hj => ?_, fun _ => ?_, not_mem_nil, by simp⟩, htext, fun h => h.1 hend,
      fun hne => by rw [if_neg hne]; rfl⟩
    · rw [hupd j (by omega), hzero j (by omega)]
    · rw [Nat.add_sub_cancel, hupd _ (by omega), hend]
  · rw [hr, Lib.holds_append] at htext
    obtain ⟨hlab, hdot, hrest⟩ := htext
    have hlen := congrArg List.length hr
    rw [length_append, length_cons] at hlen
    refine ⟨⟨by omega, hrest.congr fun j hj _ => hupd j (by omega), fun j hj => ?_, fun h => absurd h hne, ?_, ?_⟩, hlab,
      fun h => h.2 hdot, fun hr' => by rw [if_neg hne, if_neg hr']; omega⟩
    · rw [hupd j (by omega), hzero j (by omega)]
    · exact fun h => hbytes (by rw [hr]; exact mem_append_right _ (mem_cons_of_mem _ h))
    · rwa [hr, getLast?_append, getLast?_cons_of_ne_nil hne, Option.or_of_isSome (by simpa using hne)] at hlast

theorem bytesAt_of_holds (h : Holds q i lab) : bytesAt q i lab.length = lab := by
  induction lab generalizing i with
  | nil => rfl
  | cons c lab ih =>
    obtain ⟨hc, hlab⟩ := h
    show Lib.load q i (lab.length + 1) = _
    rw [Lib.load_succ, hc, show Lib.load q (i + 1) lab.length = lab from ih hlab]

/-- **The loop over the labels** makes a segment of the name, or finds a label that is empty or too long. -/
theorem labelLoop_spec (h : Text q i r) (hfuel : r.length < fuel) (hlen : r.length < 280) (s : ℕ) (hs : s ≤ i - 1) :
    (∃ labs q' k, Labels labs ∧ nameText labs = r ∧ labelLoop fuel q i = some (some (q', textEnd i r)) ∧
      (∀ msg, (∀ j, i - 1 ≤ j → j < textEnd i r → msg j = q' j) → Segment msg s (i - 1) (textEnd i r) labs k) ∧
      (∀ j < i - 1, q' j = q j) ∧ ∀ j, textEnd i r ≤ j → q' j = 0) ∨
    ((∀ labs, Labels labs → nameText labs ≠ r) ∧ labelLoop fuel q i = some none) := by
  induction fuel generalizing q i r with
  | zero => omega
  | succ fuel ih =>
    have hpos := h.pos
    rw [labelLoop]
    by_cases hr : r = []
    · subst hr
      rw [if_pos (h.zero i le_rfl), show textEnd i [] = i from rfl]
      refine .inl ⟨[], q, 1, fun lab hlab => absurd hlab not_mem_nil, rfl, rfl, fun msg hmsg => ?_, fun _ _ => rfl,
        fun j hj => h.zero j hj⟩
      have hroot := Segment.root hs ((hmsg (i - 1) le_rfl (by omega)).trans (h.first rfl))
      rwa [Nat.sub_add_cancel hpos] at hroot
    have hne : q i ≠ 0 := by
      obtain ⟨c, t, rfl⟩ := exists_cons_of_ne_nil hr
      exact fun h0 => h.bytes (by rw [← h0, h.text.1]; exact mem_cons_self)
    obtain ⟨hnext, hlab, hend, htextEnd⟩ := h.next (UInt8.ofNat (cut r).1.length)
    have hprefix : (cut r).1 <+: r := takeWhile_prefix _
    have hle := hprefix.length_le
    have hbytes : ∀ c ∈ (cut r).1, c ≠ 0 ∧ c ≠ 46 := fun c hc =>
      ⟨fun h0 => h.bytes (h0 ▸ hprefix.subset hc), fun h46 => not_mem_cut r (h46 ▸ hc)⟩
    -- a name with these labels has the first one in front
    have hcut {labs : List (List UInt8)} (hlabs : Labels labs) (htext : nameText labs = r) :
        (cut r).1 ≠ [] ∧ (cut r).1.length ≤ 63 ∧ ∃ labs', Labels labs' ∧ nameText labs' = (cut r).2 := by
      obtain ⟨lab, labs, rfl⟩ :=
        exists_cons_of_ne_nil (show labs ≠ [] from fun hnil => hr (by rw [← htext, hnil]; rfl))
      obtain ⟨h1, h2, h3⟩ := hlabs lab mem_cons_self
      rw [← htext, cut_nameText h3]
      exact ⟨h1, h2, labs, fun l hl => hlabs l (mem_cons_of_mem _ hl), rfl⟩
    rw [if_neg hne, labelEnd_eq hlab hbytes hend (by omega), Option.bind_some]
    by_cases hbad : (((i + (cut r).1.length : ℕ) : ℤ) - i - 1) % 2 ^ 32 > 62
    · rw [if_pos hbad]
      refine .inr ⟨fun labs hlabs htext => ?_, rfl⟩
      obtain ⟨h1, h2, -⟩ := hcut hlabs htext
      have := List.length_pos_iff.mpr h1
      omega
    rw [if_neg hbad, Nat.add_sub_cancel_left]
    have hsize : 1 ≤ (cut r).1.length ∧ (cut r).1.length ≤ 63 := by
      omega
    have hshort : (cut r).2.length < r.length := by
      rcases cut_cases h.last with ⟨h1, -⟩ | ⟨-, h2⟩
      · rw [h1]
        exact List.length_pos_iff.mpr hr
      · have := congrArg List.length h2
        rw [length_append, length_cons] at this
        omega
    rcases ih hnext (by omega) (by omega) (by omega) with
      ⟨labs, q', k, hlabs, htext, hrun, hseg, hbefore, hbehind⟩ | ⟨hno, hrun⟩
    · rw [htextEnd hr] at hseg
      rw [htextEnd hr] at hrun hbehind
      have hend' : i + (cut r).1.length ≤ textEnd i r := by
        unfold textEnd
        omega
      have hold (j : ℕ) (hj : j < i + (cut r).1.length) (hj' : j ≠ i - 1) : q' j = q j := by
        rw [hbefore j hj, update_of_ne hj']
      refine .inl ⟨(cut r).1 :: labs, q', k + 1, ?_, nameText_of_cut h.last hlabs htext, hrun, ?_,
        fun j hj => hold j (by omega) (by omega), hbehind⟩
      · exact List.forall_mem_cons.mpr ⟨⟨List.length_pos_iff.mp hsize.1, hsize.2, not_mem_cut r⟩, hlabs⟩
      · intro msg hmsg
        refine .label hs (List.length_pos_iff.mp hsize.1) hsize.2 ?_ ?_ ?_
        · rw [hmsg _ le_rfl (by omega), hbefore _ (by omega), update_self]
        · rw [Nat.sub_add_cancel hpos]
          exact bytesAt_of_holds (hlab.congr fun j hj hj' => (hmsg j (by omega) (by omega)).trans (hold j hj' (by omega)))
        · rw [Nat.sub_add_cancel hpos]
          exact hseg msg fun j hj hj' => hmsg j (by omega) hj'
    · refine .inr ⟨fun labs hlabs htext => ?_, hrun⟩
      obtain ⟨-, -, labs', hlabs', htext'⟩ := hcut hlabs htext
      exact hno labs' hlabs' htext'

/-! ## The query -/

/-- The length of a query: a header of 12 bytes, the labels with their lengths, the zero byte, the type and the class. -/
def queryLen (labs : List (List UInt8)) : ℕ := 12 + ((labs.map fun lab => lab.length + 1).sum + 1) + 4

theorem queryLen_eq (labs : List (List UInt8)) (hlabs : Labels labs) :
    queryLen labs = textEnd 13 (nameText labs) + 4 := by
  rcases eq_or_ne labs [] with rfl | hne
  · rfl
  · have := length_separated (46 : UInt8) labs hne
    rw [queryLen, textEnd, if_neg (mt hlabs.nameText_eq_nil.mp hne), nameText]
    omega

/-- `strnlen` and the test for a last dot, for a name that is not too long. -/
theorem trim_eq {dname : List UInt8} (h : dname.length ≤ 254) :
    (if dname.length ≠ 0 ∧ dname.getD (dname.length - 1) 0 = 46 then dname.length - 1 else dname.length) =
      (trimmed dname).length ∧ dname.take (trimmed dname).length = trimmed dname := by
  unfold trimmed
  rcases eq_nil_or_concat dname with rfl | ⟨t, c, rfl⟩
  · exact ⟨rfl, rfl⟩
  · rw [concat_eq_append] at h ⊢
    simp only [length_append, length_singleton, Nat.add_sub_cancel, getLast?_append, dropLast_concat,
      getLast?_singleton, Option.some_or, Option.some.injEq, getD_append_right _ _ _ _ le_rfl, Nat.sub_self]
    by_cases hc : c = 46
    · rw [if_pos ⟨by omega, hc⟩, if_pos hc, take_left]
      exact ⟨rfl, rfl⟩
    · rw [if_neg fun h => hc h.2, if_neg hc, length_append, take_of_length_le (by simp)]
      exact ⟨rfl, rfl⟩

theorem getD_eq_iff_getLast? {dname s : List UInt8} (h : dname.take s.length = s) :
    (s.length ≠ 0 ∧ dname.getD (s.length - 1) 0 = 46) ↔ s.getLast? = some 46 := by
  rcases eq_nil_or_concat s with rfl | ⟨t, c, rfl⟩
  · simp
  · rw [concat_eq_append] at h ⊢
    rw [length_append, length_singleton] at h ⊢
    have hget : dname[t.length]? = some c := by
      rw [← getElem?_take_of_lt (Nat.lt_succ_self t.length), h, getElem?_concat_length]
    rw [getLast?_concat, Nat.add_sub_cancel, getD_eq_getElem?_getD, hget, Option.some.injEq]
    exact and_iff_right (Nat.succ_ne_zero _)

variable (type cls hi lo : UInt8)

theorem finished_of_ne {e j : ℕ} (hj : 2 ≤ j) (h1 : j ≠ e + 1) (h3 : j ≠ e + 3) :
    finished q e type cls hi lo j = q j := by
  rw [finished, update_of_ne (by omega), update_of_ne (by omega), update_of_ne h3,
    update_of_ne h1]

theorem finished_type {e : ℕ} (he : 1 ≤ e) : finished q e type cls hi lo (e + 1) = type := by
  rw [finished, update_of_ne (by omega), update_of_ne (by omega), update_of_ne (by omega),
    update_self]

theorem finished_cls {e : ℕ} : finished q e type cls hi lo (e + 3) = cls := by
  rw [finished, update_of_ne (by omega), update_of_ne (by omega), update_self]

/-- What stands in the query behind the header. -/
theorem finished_spec {e k : ℕ} {type cls : ℤ} (he : 13 ≤ e)
    (hseg : ∀ msg, (∀ j, 12 ≤ j → j < e → msg j = q j) → Segment msg 12 12 e labs k) (hbehind : ∀ j, e ≤ j → q j = 0)
    (hlen : (nameText labs).length ≤ 253) (htype : 0 ≤ type ∧ type ≤ 255) (hcls : 0 ≤ cls ∧ cls ≤ 255) (hi lo : UInt8) :
    (∀ space : ℤ, (nameText labs).length < space →
      dnExpand (finished q e (UInt8.ofNat type.toNat) (UInt8.ofNat cls.toNat) hi lo) (e + 4) 12 space =
        some (e + 4 - 16, nameText labs)) ∧
    get16 (finished q e (UInt8.ofNat type.toNat) (UInt8.ofNat cls.toNat) hi lo) e = type ∧
    get16 (finished q e (UInt8.ofNat type.toNat) (UInt8.ofNat cls.toNat) hi lo) (e + 2) = cls := by
  have hbyte {x : ℤ} (hx : 0 ≤ x ∧ x ≤ 255) : (0 * 256 + (UInt8.ofNat x.toNat).toNat : ℤ) = x := by
    rw [UInt8.toNat_ofNat_of_lt' (show x.toNat < 256 by omega)]
    omega
  generalize ht : UInt8.ofNat type.toNat = t
  generalize hc : UInt8.ofNat cls.toNat = c
  refine ⟨fun space hspace => ?_, ?_, ?_⟩
  · rw [(hseg _ fun j hj hj' => finished_of_ne t c hi lo (by omega) (by omega) (by omega)).dnExpand hlen
      (Nat.le_add_right e 4) hspace, Nat.add_sub_add_right e 4 12]
  · rw [get16, finished_type t c hi lo (by omega), finished_of_ne t c hi lo (by omega) (by omega) (by omega),
      hbehind e le_rfl, ← ht]
    exact hbyte htype
  · rw [get16, finished_of_ne t c hi lo (by omega) (by omega) (by omega), hbehind _ (by omega), finished_cls t c hi lo,
      ← hc]
    exact hbyte hcls

theorem unsigned_le_iff {x k : ℤ} (hx : IsInt x) (hk : k ≤ 255) : unsigned x > k ↔ ¬ (0 ≤ x ∧ x ≤ k) := by
  obtain ⟨hlo, hhi⟩ := hx
  unfold unsigned
  omega

/-- **`__res_mkquery`** makes a query exactly if the name without a last dot has at most 253 bytes and consists of labels
of 1 to 63 bytes, the numbers are in their ranges and the query fits. A query has the length of a header and a question,
`__dn_expand` gives the name back, and the type and the class follow it. -/
theorem resMkquery_iff {op cls type : ℤ} (hop : IsInt op) (hcls : IsInt cls) (htype : IsInt type) (buflen : ℤ) (id : ℕ)
    {dname : List UInt8} (hd : (0 : UInt8) ∉ dname) :
    ∃ r, resMkquery op dname cls type buflen id = some r ∧
      (r ≠ none ↔ ∃ labs, Labels labs ∧ nameText labs = trimmed dname ∧ (trimmed dname).length ≤ 253 ∧
        (0 ≤ op ∧ op ≤ 15) ∧ (0 ≤ cls ∧ cls ≤ 255) ∧ (0 ≤ type ∧ type ≤ 255) ∧ queryLen labs ≤ buflen) ∧
      ∀ n q, r = some (n, q) → (∃ labs, Labels labs ∧ nameText labs = trimmed dname ∧ n = queryLen labs) ∧
        (∀ space : ℤ, (trimmed dname).length < space → dnExpand q n 12 space = some (n - 16, trimmed dname)) ∧
        get16 q (n - 4) = type ∧ get16 q (n - 2) = cls := by
  unfold resMkquery
  dsimp only
  by_cases hlong : 254 < dname.length
  · -- a name that is too long
    have htrim : 254 ≤ (trimmed dname).length := by
      unfold trimmed
      split
      · rw [length_dropLast]
        omega
      · omega
    rw [min_eq_right (by omega)]
    have hl : 254 ≤ (if 255 ≠ 0 ∧ dname.getD (255 - 1) 0 = 46 then 255 - 1 else 255) := by split <;> omega
    generalize (if 255 ≠ 0 ∧ dname.getD (255 - 1) 0 = 46 then 255 - 1 else 255) = l at hl
    refine ⟨none, ?_, iff_of_false (fun h => h rfl) ?_, fun n q h => by cases h⟩
    · split
      · rfl
      · rw [if_pos (.inl (by omega))]
    · rintro ⟨labs, -, -, hle, -⟩
      omega
  rw [min_eq_left (by omega), (trim_eq (by omega)).1, (trim_eq (by omega)).2]
  have htake := (trim_eq (show dname.length ≤ 254 by omega)).2
  have hbytes : (0 : UInt8) ∉ trimmed dname := fun h => hd (mem_of_mem_take (by rw [htake]; exact h))
  have hdot : ((trimmed dname).length ≠ 0 ∧ dname.getD ((trimmed dname).length - 1) 0 = 46) ↔
      (trimmed dname).getLast? = some 46 := getD_eq_iff_getLast? htake
  generalize trimmed dname = s at htake hbytes hdot
  by_cases hlast : s.getLast? = some 46
  · rw [if_pos (hdot.mpr hlast)]
    refine ⟨none, rfl, iff_of_false (fun h => h rfl) ?_, fun n q h => by cases h⟩
    rintro ⟨labs, hlabs, rfl, -⟩
    exact getLast?_nameText hlabs hlast
  rw [if_neg (mt hdot.mp hlast)]
  have hn : 17 + s.length + (if s.length = 0 then 0 else 1) = textEnd 13 s + 4 := by
    unfold textEnd
    simp only [length_eq_zero_iff]
    omega
  rw [hn]
  have hrange : (unsigned op > 15 ↔ _) ∧ (unsigned cls > 255 ↔ _) ∧ (unsigned type > 255 ↔ _) :=
    ⟨unsigned_le_iff hop (by decide), unsigned_le_iff hcls (by decide), unsigned_le_iff htype (by decide)⟩
  by_cases hbad : s.length > 253 ∨ buflen < ((textEnd 13 s + 4 : ℕ) : ℤ) ∨ unsigned op > 15 ∨ unsigned cls > 255 ∨
      unsigned type > 255
  · rw [if_pos hbad]
    refine ⟨none, rfl, iff_of_false (fun h => h rfl) ?_, fun n q h => by cases h⟩
    rintro ⟨labs, hlabs, rfl, h1, h2, h3, h4, h5⟩
    rw [queryLen_eq labs hlabs] at h5
    omega
  rw [if_neg hbad]
  simp only [hrange, not_or, not_lt, not_not] at hbad
  obtain ⟨h253, hbuf, hop', hcls', htype'⟩ := hbad
  have hq0 (j : ℕ) (hj : 12 ≤ j) : Function.update (Function.update (Function.update (fun _ : ℕ => (0 : UInt8)) 2
      (UInt8.ofNat (op * 8 + 1).toNat)) 3 32) 5 1 j = 0 := by
    rw [update_of_ne (by omega), update_of_ne (by omega), update_of_ne (by omega)]
  generalize Function.update (Function.update (Function.update (fun _ : ℕ => (0 : UInt8)) 2
      (UInt8.ofNat (op * 8 + 1).toNat)) 3 32) 5 1 = q0 at hq0
  have htext : Text (store q0 13 s) 13 s := by
    refine ⟨by decide, Lib.holds_of_getElem fun i hi => ?_, fun j hj => ?_, ?_, hbytes, hlast⟩
    · rw [Lib.store_add hi]
    · rw [Lib.store_of_ge hj, hq0 j (by omega)]
    · rintro rfl
      rw [Lib.store_of_lt (by decide), hq0 12 le_rfl]
  rcases labelLoop_spec htext (show s.length < 280 by omega) (by omega) 12 le_rfl with
    ⟨labs, q, k, hlabs, rfl, hrun, hseg, -, hbehind⟩ | ⟨hno, hrun⟩
  · rw [hrun]
    refine ⟨_, rfl, iff_of_true (fun h => by cases h) ⟨labs, hlabs, rfl, h253, hop', hcls', htype', ?_⟩, ?_⟩
    · rw [queryLen_eq labs hlabs]
      exact hbuf
    · rintro n q' h
      cases h
      have hend : 13 ≤ textEnd 13 (nameText labs) := by
        omega
      exact ⟨⟨labs, hlabs, rfl, (queryLen_eq labs hlabs).symm⟩, finished_spec hend hseg hbehind h253 htype' hcls' _ _⟩
  · rw [hrun]
    refine ⟨none, rfl, iff_of_false (fun h => h rfl) ?_, fun n q h => by cases h⟩
    rintro ⟨labs, hlabs, h, -⟩
    exact hno labs hlabs h

theorem resMkquery_iff_a : ∃ n q, resMkquery 0 [97, 46] 1 28 280 5 = some (some (n, q)) ∧
    dnExpand q n 12 254 = some (n - 16, [97]) ∧ get16 q (n - 4) = 28 ∧ get16 q (n - 2) = 1 := by
  obtain ⟨r, hr, hmade, hquery⟩ := resMkquery_iff (show IsInt 0 by decide) (show IsInt 1 by decide)
    (show IsInt 28 by decide) 280 5 (show (0 : UInt8) ∉ [97, 46] by decide)
  have hlabs : Labels [[97]] := by
    unfold Labels
    decide
  have hne : r ≠ none := hmade.mpr ⟨[[97]], hlabs, by decide, by decide, by decide, by decide, by decide, by decide⟩
  obtain ⟨⟨n, q⟩, rfl⟩ := Option.ne_none_iff_exists'.mp hne
  obtain ⟨-, hname, htype, hcls⟩ := hquery n q rfl
  exact ⟨n, q, hr, hname 254 (by decide), by exact_mod_cast htype, by exact_mod_cast hcls⟩

end Leblibc.Dns

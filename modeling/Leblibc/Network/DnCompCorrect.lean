import Leblibc.Lib.Separated
import Leblibc.Network.DnComp

/-!
# Compression of domain names: the round trip

A name in a message is a segment: labels one after the other, and at their end a zero or a pointer into a segment
that ends before this one begins. So no byte is read twice when a name is expanded, and the rounds that `__dn_expand`
allows are enough. A call of `dn_comp` adds a segment behind the others: `match` finds where the end of an earlier
name is the end of this one, and the pointer leads there.

A run is a sequence of calls, each for a place behind the names that have been written before; the memory behind
these may have any contents before each call.

## Main results

* `Segment.rounds_le`: a name is expanded in at most half as many rounds as there are bytes
* `Segment.expand`: `__dn_expand` of a segment
* `Segment.getoffs`, `matchName_spec`: what `match` finds
* `pack_segment`: what `dn_comp` writes
* `dnComp_spec`: a call
* `dnExpand_run`: every name of a run is expanded
-/

namespace Leblibc.Dns

open List

open Lib (store)

/-! ## Names -/

/-- A label: 1 to 63 bytes without NUL, dot and backslash. -/
def ValidLabel (lab : List UInt8) : Prop := lab ≠ [] ∧ lab.length ≤ 63 ∧ ∀ c ∈ lab, c ≠ 0 ∧ c ≠ 46 ∧ c ≠ 92

/-- The text of a name: the labels with dots between them. -/
def nameText (labs : List (List UInt8)) : List UInt8 := separated 46 labs

/-- A valid name; the root has no labels. -/
def ValidName (labs : List (List UInt8)) : Prop := (∀ lab ∈ labs, ValidLabel lab) ∧ (nameText labs).length ≤ 253

variable {labs : List (List UInt8)} {msg : ℕ → UInt8} {p : ℕ} {lab : List UInt8} {c : Call} {e k i bound fuel dst : ℕ}
  {w : World}

theorem nameText_cons (lab : List UInt8) (h : labs ≠ []) :
    nameText (lab :: labs) = lab ++ 46 :: nameText labs := separated_cons 46 lab h

/-- The labels of a name in a message, which may have any bytes but dots. -/
def Labels (labs : List (List UInt8)) : Prop := ∀ lab ∈ labs, lab ≠ [] ∧ lab.length ≤ 63 ∧ (46 : UInt8) ∉ lab

theorem labels_of_valid (h : ∀ lab ∈ labs, ValidLabel lab) : Labels labs := fun lab hlab =>
  ⟨(h lab hlab).1, (h lab hlab).2.1, fun hc => ((h lab hlab).2.2 46 hc).2.1 rfl⟩

theorem nameText_ne_nil (hlab : Labels labs) (h : labs ≠ []) : nameText labs ≠ [] := by
  obtain ⟨lab, labs, rfl⟩ := exists_cons_of_ne_nil h
  have hne := (hlab lab mem_cons_self).1
  rcases eq_or_ne labs [] with rfl | hlabs
  · exact hne
  · rw [nameText_cons lab hlabs]
    simp

/-! ## Names in messages -/

/-- **A name in a message**, from the offset `p` on: it belongs to a segment that begins at `s₀` and ends at `e`, has
the labels `labs`, and is expanded in `k` rounds. A pointer leads into a segment that ends before `s₀`. -/
inductive Segment (msg : ℕ → UInt8) : ℕ → ℕ → ℕ → List (List UInt8) → ℕ → Prop
  | root {s₀ p : ℕ} (hs : s₀ ≤ p) (h : msg p = 0) : Segment msg s₀ p (p + 1) [] 1
  | label {s₀ p e k : ℕ} {lab : List UInt8} {labs : List (List UInt8)} (hs : s₀ ≤ p) (hne : lab ≠ [])
    (hlen : lab.length ≤ 63) (h : msg p = UInt8.ofNat lab.length) (hlab : bytesAt msg (p + 1) lab.length = lab)
    (rest : Segment msg s₀ (p + 1 + lab.length) e labs k) : Segment msg s₀ p e (lab :: labs) (k + 1)
  | pointer {s₀ p s₁ q e k : ℕ} {labs : List (List UInt8)} (hs : s₀ ≤ p) (h : msg p &&& 192 = 192)
    (hq : pointerAt msg p = q) (he : e ≤ s₀) (rest : Segment msg s₁ q e labs k) :
    Segment msg s₀ p (p + 2) labs (k + 1)

theorem bytesAt_congr {msg' : ℕ → UInt8} {n : ℕ} (h : ∀ i, p ≤ i → i < p + n → msg' i = msg i) :
    bytesAt msg' p n = bytesAt msg p n := Lib.load_congr h

namespace Segment

variable {msg : ℕ → UInt8} {s₀ p e k : ℕ} {labs : List (List UInt8)}

theorem start_le (h : Segment msg s₀ p e labs k) : s₀ ≤ p := by
  cases h <;> assumption

theorem lt_end (h : Segment msg s₀ p e labs k) : p < e := by
  induction h with
  | root => omega
  | label => omega
  | pointer => omega

/-- **No byte is read twice**: a round reads two bytes or more, or the last one. -/
theorem rounds_le (h : Segment msg s₀ p e labs k) : 2 * k ≤ (e - p) + s₀ + 1 := by
  induction h with
  | root => omega
  | @label s₀ p e k lab labs hs hne hlen h hlab rest ih =>
    have hpos := List.length_pos_iff.mpr hne
    have hlt := rest.lt_end
    omega
  | @pointer s₀ p s1 q e k labs hs h hq he rest ih =>
    have hlt := rest.lt_end
    have hle := rest.start_le
    omega

/-- What is written behind a segment does not change it. -/
theorem frame (h : Segment msg s₀ p e labs k) {msg' : ℕ → UInt8} (hmsg : ∀ i < e, msg' i = msg i) :
    Segment msg' s₀ p e labs k := by
  induction h with
  | @root s₀ p hs h => exact .root hs (by rw [hmsg p (by omega), h])
  | @label s₀ p e k lab labs hs hne hlen h hlab rest ih =>
    have hlt := rest.lt_end
    refine .label hs hne hlen (by rw [hmsg p (by omega), h]) ?_ (ih hmsg)
    exact (bytesAt_congr fun i _ hi => hmsg i (by omega)).trans hlab
  | @pointer s₀ p s1 q e k labs hs h hq he rest ih =>
    refine .pointer hs (by rw [hmsg p (by omega), h]) ?_ he (ih fun i hi => hmsg i (by omega))
    rw [← hq, pointerAt, pointerAt, hmsg p (by omega), hmsg (p + 1) (by omega)]

theorem label_byte (hne : lab ≠ []) (hlen : lab.length ≤ 63) {c : UInt8}
    (hc : c = UInt8.ofNat lab.length) : c &&& 192 = 0 ∧ c ≠ 0 ∧ c.toNat = lab.length := by
  have hpos := List.length_pos_iff.mpr hne
  generalize lab.length = n at hlen hc hpos
  subst hc
  have hall : ∀ n < 64, 0 < n → UInt8.ofNat n &&& 192 = 0 ∧ UInt8.ofNat n ≠ 0 ∧ (UInt8.ofNat n).toNat = n := by decide
  exact hall n (by omega) hpos

/-- The text `out` with the labels of a name behind it. -/
def textBehind (out : List UInt8) (labs : List (List UInt8)) : List UInt8 :=
  if labs = [] then out else if out = [] then nameText labs else out ++ 46 :: nameText labs

theorem textBehind_cons (out : List UInt8) (hne : lab ≠ []) (labs : List (List UInt8)) :
    textBehind ((if out = [] then out else out ++ [46]) ++ lab) labs = textBehind out (lab :: labs) := by
  have hout : (if out = [] then out else out ++ [46]) ++ lab ≠ [] := by simp [hne]
  unfold textBehind
  rw [if_neg hout]
  rcases eq_or_ne labs [] with rfl | hlabs
  · by_cases h : out = [] <;> simp [h, nameText, separated]
  · rw [if_neg hlabs, nameText_cons lab hlabs]
    by_cases h : out = [] <;> simp [h]

theorem length_le_textBehind (out : List UInt8) (labs : List (List UInt8)) :
    out.length ≤ (textBehind out labs).length := by
  unfold textBehind
  split_ifs with hlabs hout
  · exact le_rfl
  · simp [hout]
  · simp

/-- **A segment is expanded** with its labels behind the text so far, and to the end that it has itself. -/
theorem expand (h : Segment msg s₀ p e labs k) {eom src cap : ℕ} : ∀ {fuel : ℕ} (len : Option ℕ) (out : List UInt8),
    k ≤ fuel → e ≤ eom → (textBehind out labs).length < cap →
      expandLoop msg eom src cap fuel p len out = some (len.getD (e - src), textBehind out labs) := by
  induction h with
  | @root s₀ p hs h =>
    intro fuel len out hk he hcap
    rcases fuel with _ | fuel
    · omega
    rw [expandLoop, h]
    rfl
  | @label s₀ p e k lab labs hs hne hlen h hlab rest ih =>
    intro fuel len out hk he hcap
    rcases fuel with _ | fuel
    · omega
    obtain ⟨h192, h0, hnat⟩ := label_byte hne hlen h
    have hlt := rest.lt_end
    have htext := textBehind_cons out hne labs
    have hroom := length_le_textBehind ((if out = [] then out else out ++ [46]) ++ lab) labs
    rw [htext, length_append] at hroom
    rw [expandLoop, if_neg (not_not_intro h192), if_pos h0]
    simp only [hnat, hlab]
    rw [if_neg (by omega), ih len _ (by omega) he (by rw [htext]; exact hcap), htext]
  | @pointer s₀ p s1 q e k labs hs h hq he' rest ih =>
    intro fuel len out hk he hcap
    rcases fuel with _ | fuel
    · omega
    have hlt := rest.lt_end
    rw [expandLoop, h, if_pos (by decide), if_neg (by omega), hq, if_neg (by omega),
      ih _ out (by omega) (by omega) hcap]
    rfl

end Segment

/-- **`__dn_expand`** of a segment: its length, and its text. -/
theorem Segment.dnExpand {s : ℕ} (h : Segment msg s s e labs k) (hlen : (nameText labs).length ≤ 253) {eom : ℕ}
    (he : e ≤ eom) {space : ℤ} (hspace : (nameText labs).length < space) :
    dnExpand msg eom s space = some (e - s, nameText labs) := by
  have hlt := h.lt_end
  have hrounds := h.rounds_le
  have htext : textBehind [] labs = nameText labs := by
    unfold textBehind
    split
    · rename_i hnil
      rw [hnil]
      rfl
    · rfl
  unfold Dns.dnExpand
  rw [if_neg (by omega), h.expand none [] (by omega) he (by rw [htext]; split <;> omega), htext]
  rfl

/-! ## Ends in common -/

/-- A label in a message at the offset `o`, and the name that begins with it, in a segment that ends before `bound`. -/
def LabelAt (msg : ℕ → UInt8) (bound o : ℕ) (lab : List UInt8) (labs : List (List UInt8)) : Prop :=
  o < 16384 ∧ (msg o).toNat = lab.length ∧ bytesAt msg (o + 1) lab.length = lab ∧
    ∃ s e k, e ≤ bound ∧ Segment msg s o e (lab :: labs) k

/-- Offsets of the labels of a name. -/
inductive Leads (msg : ℕ → UInt8) (bound : ℕ) : List ℕ → List (List UInt8) → Prop
  | nil : Leads msg bound [] []
  | cons {o : ℕ} {offs : List ℕ} {lab : List UInt8} {labs : List (List UInt8)} (h : LabelAt msg bound o lab labs)
    (rest : Leads msg bound offs labs) : Leads msg bound (o :: offs) (lab :: labs)

namespace Leads

variable {msg : ℕ → UInt8} {bound : ℕ} {offs : List ℕ} {labs : List (List UInt8)}

theorem length_eq (h : Leads msg bound offs labs) : offs.length = labs.length := by
  induction h with
  | nil => rfl
  | cons h rest ih => rw [length_cons, length_cons, ih]

theorem mono (h : Leads msg bound offs labs) {bound' : ℕ} (hb : bound ≤ bound') : Leads msg bound' offs labs := by
  induction h with
  | nil => exact .nil
  | cons h rest ih =>
    obtain ⟨ho, hlen, hlab, s, e, k, he, hseg⟩ := h
    exact .cons ⟨ho, hlen, hlab, s, e, k, he.trans hb, hseg⟩ ih

theorem labelAt (h : Leads msg bound offs labs) (hi : i < labs.length) :
    ∃ lab, labs.drop i = lab :: labs.drop (i + 1) ∧ LabelAt msg bound (offs.getD i 0) lab (labs.drop (i + 1)) := by
  induction h generalizing i with
  | nil => exact absurd hi (Nat.not_lt_zero i)
  | @cons o offs lab labs h rest ih =>
    cases i with
    | zero => exact ⟨lab, rfl, h⟩
    | succ i => exact ih (Nat.lt_of_succ_lt_succ hi)

end Leads

/-- **`getoffs`** finds the labels of a name, or gives up if the name is too far from the start of the message. -/
theorem Segment.getoffs {s₀ : ℕ} (h : Segment msg s₀ p e labs k) :
    ∀ (fuel : ℕ) (acc : List ℕ), k ≤ fuel → acc.length + labs.length ≤ 128 →
      getoffsLoop msg fuel p acc = some [] ∨
        ∃ offs, getoffsLoop msg fuel p acc = some (acc ++ offs) ∧ Leads msg e offs labs := by
  induction h with
  | @root s₀ p hs h =>
    intro fuel acc hk hlen
    rcases fuel with _ | fuel
    · omega
    refine .inr ⟨[], ?_, .nil⟩
    rw [getoffsLoop, h, if_neg (by decide), if_pos rfl, append_nil]
  | @label s₀ p e k lab labs hs hne hlen h hlab rest ih =>
    intro fuel acc hk hacc
    rcases fuel with _ | fuel
    · omega
    obtain ⟨h192, h0, hnat⟩ := label_byte hne hlen h
    rw [length_cons] at hacc
    rw [getoffsLoop, if_neg (not_not_intro h192), if_neg h0]
    split
    · exact .inl rfl
    · rw [if_neg (by omega), hnat, Nat.add_comm lab.length, ← Nat.add_assoc]
      rcases ih fuel (acc ++ [p]) (by omega) (by simp; omega) with hnil | ⟨offs, heq, hleads⟩
      · exact .inl hnil
      · refine .inr ⟨p :: offs, by rw [heq, append_assoc]; rfl, .cons ?_ hleads⟩
        exact ⟨by omega, hnat, hlab, s₀, e, k + 1, le_rfl, .label hs hne hlen h hlab rest⟩
  | @pointer s₀ p s1 q e k labs hs h hq he rest ih =>
    intro fuel acc hk hacc
    rcases fuel with _ | fuel
    · omega
    rw [getoffsLoop, h, hq]
    rcases ih fuel acc (by omega) hacc with hnil | ⟨offs, heq, hleads⟩
    · exact .inl hnil
    · exact .inr ⟨offs, heq, hleads.mono (by omega)⟩

theorem nameText_take_succ (h : labs[i]? = some lab) :
    nameText (labs.take (i + 1)) = nameText (labs.take i) ++ ((if i = 0 then [] else [46]) ++ lab) := by
  rw [take_add_one, h, Option.toList_some]
  rcases eq_or_ne (labs.take i) [] with hnil | hne
  · have hi : i = 0 := by
      rcases List.take_eq_nil_iff.mp hnil with hi | hlabs
      · exact hi
      · rw [hlabs] at h
        cases h
    rw [hnil, if_pos hi]
    rfl
  · have hi : i ≠ 0 := by
      rintro rfl
      exact hne rfl
    rw [if_neg hi, nameText, separated_append 46 hne (cons_ne_nil _ _)]
    rfl

/-- The text of the first labels is at the front of the text. -/
theorem nameText_take_isPrefix (labs : List (List UInt8)) (i : ℕ) : nameText (labs.take i) <+: nameText labs := by
  conv_rhs => rw [← take_append_drop i labs]
  rcases eq_or_ne (labs.take i) [] with hnil | hne
  · rw [hnil]
    exact nil_prefix
  · rcases eq_or_ne (labs.drop i) [] with hdrop | hdrop
    · rw [hdrop, append_nil]
    · rw [nameText, nameText, separated_append 46 hne hdrop]
      exact prefix_append _ _

/-- What `match` may find for the name `labs`: nothing, or where its last labels are in the message. -/
def Found (msg : ℕ → UInt8) (bound : ℕ) (labs : List (List UInt8)) (r : ℕ × ℕ) : Prop :=
  r.1 = 0 ∨ ∃ i < labs.length, r.1 = (nameText labs).length - (nameText (labs.take i)).length ∧ r.2 < 16384 ∧
    ∃ s e k, e ≤ bound ∧ Segment msg s r.2 e (labs.drop i) k

/-- **The loop of `match`**, from the end of the two names on. -/
theorem matchLoop_spec {offs : List ℕ} {labs' : List (List UInt8)}
    (hleads : Leads msg bound offs labs') (labs : List (List UInt8)) :
    ∀ (i noff m offset : ℕ), i ≤ labs.length → noff ≤ labs'.length → noff ≠ 0 →
    labs.drop i = labs'.drop noff → m = (nameText labs).length - (nameText (labs.take i)).length →
    Found msg bound labs (m, offset) →
    Found msg bound labs (matchLoop msg (nameText labs) (labs.map List.length) offs i noff
      (nameText (labs.take i)).length m offset) := by
  intro i
  induction i with
  | zero => exact fun noff m offset _ _ _ _ _ hfound => hfound
  | succ i ih =>
    intro noff m offset hi hnoff hne hdrop hm hfound
    obtain ⟨lab, hlab⟩ : ∃ lab, labs[i]? = some lab := ⟨_, getElem?_eq_getElem (by omega)⟩
    obtain ⟨lab', hlab', ho, hlen, hbytes, s, e, k, he, hseg⟩ := hleads.labelAt (i := noff - 1) (by omega)
    rw [Nat.sub_add_cancel (Nat.one_le_iff_ne_zero.mpr hne)] at hlab' hseg
    have hlens : (labs.map List.length).getD i 0 = lab.length := by
      simp [hlab]
    have htext := nameText_take_succ hlab
    -- the label of the new name that is compared
    have hcompared : ((nameText labs).drop ((nameText (labs.take (i + 1))).length - lab.length)).take lab.length =
        lab := by
      obtain ⟨t, ht⟩ := nameText_take_isPrefix labs (i + 1)
      rw [← append_assoc] at htext
      rw [← ht, htext, length_append, Nat.add_sub_cancel, append_assoc, drop_left, take_left]
    have hlength := congrArg List.length htext
    have hle := (nameText_take_isPrefix labs (i + 1)).length_le
    rw [length_append, length_append] at hlength
    rw [matchLoop]
    simp only [hlens, hcompared]
    split
    · exact hfound
    · rename_i hsame
      obtain ⟨hsame, hsame'⟩ := not_or.mp hsame
      have hlab'eq : lab' = lab := by
        rw [← hbytes, ← hlen, ← not_not.mp hsame, not_not.mp hsame']
      have hnext : labs.drop i = labs'.drop (noff - 1) := by
        rw [hlab', hlab'eq, ← hdrop]
        rw [drop_eq_getElem?_toList_append, hlab]
        rfl
      have hm' : m + lab.length + (if i ≠ 0 then 1 else 0) =
          (nameText labs).length - (nameText (labs.take i)).length := by
        rcases eq_or_ne i 0 with h0 | h0
        · rw [if_pos h0, length_nil] at hlength
          rw [if_neg (not_not_intro h0)]
          omega
        · rw [if_neg h0, length_singleton] at hlength
          rw [if_pos h0]
          omega
      have hfound' : Found msg bound labs
          (m + lab.length + (if i ≠ 0 then 1 else 0), offs.getD (noff - 1) 0) := by
        refine .inr ⟨i, by omega, hm', ho, s, e, k, he, ?_⟩
        rw [hnext, hlab']
        exact hseg
      split
      · exact hfound'
      · rename_i hmore
        obtain ⟨hi0, hnoff0⟩ := not_or.mp hmore
        have hend : (nameText (labs.take (i + 1))).length - lab.length - 1 = (nameText (labs.take i)).length := by
          rw [if_neg hi0, length_singleton] at hlength
          omega
        rw [hend]
        exact ih (noff - 1) _ _ (by omega) (by omega) hnoff0 hnext hm' hfound'

theorem ValidName.length_le (h : ValidName labs) : labs.length ≤ 127 := by
  rcases eq_or_ne labs [] with rfl | hne
  · exact Nat.zero_le _
  · have hlen := length_separated 46 labs hne
    have hsum : 2 * labs.length ≤ (labs.map fun lab => lab.length + 1).sum := by
      have := card_nsmul_le_sum (labs.map fun lab => lab.length + 1) 2 (by
        intro x hx
        obtain ⟨lab, hlab, rfl⟩ := List.mem_map.mp hx
        have := List.length_pos_iff.mpr (h.1 lab hlab).1
        omega)
      rw [length_map, smul_eq_mul] at this
      omega
    have hle : (separated 46 labs).length ≤ 253 := h.2
    omega

/-- A name that has been written before: a segment that ends before `bound`. -/
def Earlier (msg : ℕ → UInt8) (bound dn : ℕ) : Prop :=
  ∃ s e k labs, e ≤ bound ∧ ValidName labs ∧ Segment msg s dn e labs k

/-- **`match`** returns, with what it may find. -/
theorem matchName_spec {dn : ℕ} (hfuel : bound ≤ fuel) (hdn : Earlier msg bound dn) (labs : List (List UInt8)) :
    ∃ r, matchName msg fuel (nameText labs) (labs.map List.length) dn = some r ∧ Found msg bound labs r := by
  obtain ⟨s, e, k, labs', he, hvalid, hseg⟩ := hdn
  have hlen := hvalid.length_le
  have hrounds := hseg.rounds_le
  have hstart := hseg.start_le
  have hlt := hseg.lt_end
  have hnothing : Found msg bound labs (0, 0) := .inl rfl
  rcases hseg.getoffs fuel [] (by omega) (by simp; omega) with hnil | ⟨offs, heq, hleads⟩
  · exact ⟨(0, 0), by rw [matchName, hnil]; rfl, hnothing⟩
  · rw [nil_append] at heq
    refine ⟨_, by rw [matchName, heq, Option.map_some], ?_⟩
    split
    · exact hnothing
    · rename_i hne
      have hoffs := hleads.length_eq
      have hpos := List.length_pos_iff.mpr hne
      have hmatch := matchLoop_spec (hleads.mono he) labs labs.length offs.length 0 0 le_rfl hoffs.le (by omega)
        (by rw [drop_length, hoffs, drop_length]) (by simp) hnothing
      rwa [take_length, ← length_map] at hmatch

/-- **The loop over the names** keeps the best of what has been found. -/
theorem bestMatch_spec (hfuel : bound ≤ fuel) (labs : List (List UInt8)) :
    ∀ (dns : List ℕ) (best : ℕ × ℕ), (∀ dn ∈ dns, Earlier msg bound dn) → Found msg bound labs best →
      ∃ r, bestMatch msg fuel (nameText labs) (labs.map List.length) dns best = some r ∧ Found msg bound labs r
  | [], best, _, hbest => ⟨best, rfl, hbest⟩
  | dn :: dns, best, hdns, hbest => by
    obtain ⟨r, hr, hfound⟩ := matchName_spec hfuel (hdns dn mem_cons_self) labs
    have hrest : ∀ dn ∈ dns, Earlier msg bound dn := fun dn hdn => hdns dn (mem_cons_of_mem _ hdn)
    rw [bestMatch, hr, Option.bind_some]
    split
    · split
      · exact ⟨r, rfl, hfound⟩
      · exact bestMatch_spec hfuel labs dns r hrest hfound
    · exact bestMatch_spec hfuel labs dns best hrest hbest

/-! ## What is written -/

/-- Labels, each behind its length. -/
def encode (labs : List (List UInt8)) : List UInt8 := labs.flatMap fun lab => UInt8.ofNat lab.length :: lab

theorem encode_cons (lab : List UInt8) (labs : List (List UInt8)) :
    encode (lab :: labs) = UInt8.ofNat lab.length :: (lab ++ encode labs) := rfl

theorem length_encode (h : labs ≠ []) :
    (encode labs).length = (nameText labs).length + 1 := by
  rw [nameText, length_separated 46 labs h, encode]
  simp

theorem bytesAt_add (msg : ℕ → UInt8) (p m n : ℕ) :
    bytesAt msg p (m + n) = bytesAt msg p m ++ bytesAt msg (p + m) n := Lib.load_add msg p m n

theorem bytesAt_succ (msg : ℕ → UInt8) (p n : ℕ) : bytesAt msg p (n + 1) = msg p :: bytesAt msg (p + 1) n :=
  Lib.load_succ msg p n

theorem length_bytesAt (msg : ℕ → UInt8) (p n : ℕ) : (bytesAt msg p n).length = n := Lib.length_load msg p n

theorem bytesAt_store (msg : ℕ → UInt8) (p : ℕ) (bs : List UInt8) : bytesAt (store msg p bs) p bs.length = bs :=
  Lib.load_store_same msg p bs

theorem store_of_outside {bs : List UInt8} (h : i < p ∨ p + bs.length ≤ i) :
    store msg p bs i = msg i := h.elim Lib.store_of_lt Lib.store_of_ge

/-- **The loop over the labels** makes of the text of a name, one byte behind its place, the labels with their
lengths, and changes nothing else. -/
theorem storeLens_spec (dst limit : ℕ) (rest : List (List UInt8)) : ∀ (labs : List (List UInt8)) (i : ℕ)
    (msg : ℕ → UInt8), (∀ lab ∈ labs, lab ≠ []) → (labs = [] → limit ≤ i) →
    (labs ≠ [] → limit = i + (nameText labs).length) →
    bytesAt msg (dst + i + 1) (nameText labs).length = nameText labs →
    ∃ msg', storeLens dst limit ((labs ++ rest).map List.length) i msg = (msg', i + (encode labs).length) ∧
      bytesAt msg' (dst + i) (encode labs).length = encode labs ∧
      ∀ x, x < dst + i ∨ dst + i + (encode labs).length ≤ x → msg' x = msg x
  | [], i, msg, _, hstop, _, _ => by
    refine ⟨msg, ?_, rfl, fun _ _ => rfl⟩
    cases rest with
    | nil => rfl
    | cons lab rest =>
      rw [nil_append, map_cons, storeLens, if_neg (Nat.not_lt.mpr (hstop rfl))]
      rfl
  | lab :: labs, i, msg, hlabs, _, hcut, hbytes => by
    have hlimit := hcut (cons_ne_nil _ _)
    have hpos := List.length_pos_iff.mpr (hlabs lab mem_cons_self)
    have hsame {p n : ℕ} (hp : dst + i < p) :
        bytesAt (Function.update msg (dst + i) (UInt8.ofNat lab.length)) p n = bytesAt msg p n :=
      bytesAt_congr fun x hx _ => Function.update_of_ne (by omega) _ _
    -- the text is the label and, behind a dot, that of the other labels
    have htext : ∃ t, nameText (lab :: labs) = lab ++ t ∧ (labs = [] → t = []) ∧
        (labs ≠ [] → t = 46 :: nameText labs) := by
      rcases eq_or_ne labs [] with rfl | hne
      · exact ⟨[], (append_nil lab).symm, fun _ => rfl, fun h => absurd rfl h⟩
      · exact ⟨_, nameText_cons lab hne, fun h => absurd h hne, fun _ => rfl⟩
    obtain ⟨t, htext, hnil, hcons⟩ := htext
    rw [htext, length_append] at hlimit
    rw [htext, length_append, bytesAt_add] at hbytes
    obtain ⟨hlab, htail⟩ := append_inj hbytes (length_bytesAt _ _ _)
    have hstop' : labs = [] → limit ≤ i + lab.length + 1 := by
      intro h
      rw [hnil h, length_nil] at hlimit
      omega
    have hcut' : labs ≠ [] → limit = i + lab.length + 1 + (nameText labs).length := by
      intro h
      rw [hcons h, length_cons] at hlimit
      omega
    have hbytes' : bytesAt (Function.update msg (dst + i) (UInt8.ofNat lab.length))
        (dst + (i + lab.length + 1) + 1) (nameText labs).length = nameText labs := by
      rcases eq_or_ne labs [] with rfl | hne
      · rfl
      · rw [hcons hne, length_cons, bytesAt_succ] at htail
        rw [hsame (by omega), show dst + (i + lab.length + 1) + 1 = dst + i + 1 + lab.length + 1 by omega]
        exact (List.cons.inj htail).2
    obtain ⟨msg', heq, henc, hframe⟩ := storeLens_spec dst limit rest labs (i + lab.length + 1) _
      (fun l hl => hlabs l (mem_cons_of_mem _ hl)) hstop' hcut' hbytes'
    have hlen : (encode (lab :: labs)).length = lab.length + (encode labs).length + 1 := by
      rw [encode_cons, length_cons, length_append]
    refine ⟨msg', ?_, ?_, fun x hx => ?_⟩
    · rw [cons_append, map_cons, storeLens, if_pos (by omega), heq]
      congr 1
      omega
    · rw [hlen, bytesAt_succ, bytesAt_add, hframe _ (by omega), Function.update_self, encode_cons,
        show dst + i + 1 + lab.length = dst + (i + lab.length + 1) by omega, henc]
      have hkept : bytesAt msg' (dst + i + 1) lab.length = lab := by
        rw [bytesAt_congr fun x hx hx' => hframe x (by omega), hsame (by omega), hlab]
      rw [hkept]
    · rw [hframe x (by omega), Function.update_of_ne (by omega)]

theorem Segment.encode {s₀ : ℕ} {rest : List (List UInt8)} :
    ∀ {labs : List (List UInt8)} {p : ℕ}, s₀ ≤ p → (∀ lab ∈ labs, lab ≠ [] ∧ lab.length ≤ 63) →
      bytesAt msg p (encode labs).length = encode labs → Segment msg s₀ (p + (encode labs).length) e rest k →
      Segment msg s₀ p e (labs ++ rest) (k + labs.length)
  | [], p, _, _, _, h => h
  | lab :: labs, p, hs, hlabs, hbytes, h => by
    have hlen : (Dns.encode (lab :: labs)).length = lab.length + (Dns.encode labs).length + 1 := by
      rw [encode_cons, length_cons, length_append]
    rw [hlen, bytesAt_succ, bytesAt_add] at hbytes
    obtain ⟨hbyte, hbytes⟩ := List.cons.inj hbytes
    obtain ⟨hlab, hbytes⟩ := append_inj hbytes (length_bytesAt _ _ _)
    obtain ⟨hne, hle⟩ := hlabs lab mem_cons_self
    rw [hlen, show p + (lab.length + (Dns.encode labs).length + 1) = p + 1 + lab.length + (Dns.encode labs).length
      by omega] at h
    exact .label hs hne hle hbyte hlab
      (Segment.encode (by omega) (fun l hl => hlabs l (mem_cons_of_mem _ hl)) hbytes h)

theorem pointer_bytes {o : ℕ} (ho : o < 16384) :
    (192 ||| UInt8.ofNat (o / 256)) &&& 192 = 192 ∧
      ((192 ||| UInt8.ofNat (o / 256)) &&& 63).toNat * 256 + (UInt8.ofNat o).toNat = o := by
  have hall : ∀ n < 64, (192 ||| UInt8.ofNat n) &&& 192 = 192 ∧ ((192 ||| UInt8.ofNat n) &&& 63).toNat = n := by
    decide
  obtain ⟨h192, h63⟩ := hall (o / 256) (by omega)
  refine ⟨h192, ?_⟩
  rw [UInt8.toNat_ofNat']
  omega

theorem length_nameText_take_lt (hlabs : ∀ lab ∈ labs, lab ≠ [])
    (hi : i < labs.length) : (nameText (labs.take i)).length < (nameText labs).length := by
  obtain ⟨lab, hlab⟩ : ∃ lab, labs[i]? = some lab := ⟨_, getElem?_eq_getElem hi⟩
  have htext := congrArg List.length (nameText_take_succ hlab)
  have hpos := List.length_pos_iff.mpr (hlabs lab (mem_of_getElem? hlab))
  have hle := (nameText_take_isPrefix labs (i + 1)).length_le
  rw [length_append, length_append] at htext
  omega

/-- The labels that are written, and those that the pointer to what has been found stands for. -/
theorem Found.kept {r : ℕ × ℕ} (h : Found msg bound labs r) (hlabs : ∀ lab ∈ labs, lab ≠ []) :
    ∃ kept rest, labs = kept ++ rest ∧ nameText kept <+: nameText labs ∧
      (nameText labs).length - r.1 = (nameText kept).length ∧
      ((r.1 = 0 ∧ rest = []) ∨
        (r.1 ≠ 0 ∧ (nameText labs).length = (nameText kept).length + r.1 ∧ r.2 < 16384 ∧
          ∃ s e k, e ≤ bound ∧ Segment msg s r.2 e rest k)) := by
  rcases h with h0 | ⟨i, hi, hr, hoff, hseg⟩
  · exact ⟨labs, [], (append_nil labs).symm, prefix_refl _, by rw [h0, Nat.sub_zero], .inl ⟨h0, rfl⟩⟩
  · have hlt := length_nameText_take_lt hlabs hi
    exact ⟨labs.take i, labs.drop i, (take_append_drop i labs).symm, nameText_take_isPrefix labs i, by omega,
      .inr ⟨by omega, by omega, hoff, hseg⟩⟩

/-- **What `dn_comp` writes** is a segment with the labels of the name, as long as the test for room has counted; and
it writes nothing else. -/
theorem pack_segment {r : ℕ × ℕ}
    (hlabs : ∀ lab ∈ labs, ValidLabel lab) (hne : labs ≠ []) (hfound : Found msg bound labs r) (hbound : bound ≤ dst) :
    ∃ msg', pack msg (nameText labs) (labs.map List.length) dst r.1 r.2 = (msg', needed (nameText labs).length r.1) ∧
      (∃ k, Segment msg' dst dst (dst + needed (nameText labs).length r.1) labs k) ∧
      ∀ x, x < dst ∨ dst + needed (nameText labs).length r.1 ≤ x → msg' x = msg x := by
  obtain ⟨kept, rest, rfl, hpre, hlimit, hrest⟩ := hfound.kept fun lab hlab => (hlabs lab hlab).1
  have hkept : ∀ lab ∈ kept, ValidLabel lab := fun lab hlab => hlabs lab (mem_append_left rest hlab)
  -- the text of the labels that are written, and then their lengths
  obtain ⟨msg', hstore, henc, hframe⟩ := storeLens_spec dst (nameText kept).length rest kept 0
    (store msg (dst + 1) (nameText kept)) (fun lab hlab => (hkept lab hlab).1) (fun h => by rw [h]; exact le_rfl)
    (fun _ => (Nat.zero_add _).symm) (bytesAt_store _ _ _)
  have hcopy := (List.prefix_iff_eq_take.mp hpre).symm
  rw [Nat.zero_add] at hstore
  have hsize : (nameText kept).length = 0 ∧ (encode kept).length = 0 ∧ kept = [] ∨
      (encode kept).length = (nameText kept).length + 1 ∧ 0 < (nameText kept).length := by
    rcases eq_or_ne kept [] with rfl | h
    · exact .inl ⟨rfl, rfl, rfl⟩
    · exact .inr ⟨length_encode h, List.length_pos_iff.mpr (nameText_ne_nil (labels_of_valid hkept) h)⟩
  have hframe' (tail : List UInt8) (x : ℕ) (hx : x < dst ∨ dst + ((encode kept).length + tail.length) ≤ x) :
      store msg' (dst + (encode kept).length) tail x = msg x := by
    rw [store_of_outside (by omega), hframe x (by omega), store_of_outside (by omega)]
  have hlabels {tail : List UInt8} {k e : ℕ}
      (h : Segment (store msg' (dst + (encode kept).length) tail) dst (dst + (encode kept).length) e rest k) :
      Segment (store msg' (dst + (encode kept).length) tail) dst dst e (kept ++ rest) (k + kept.length) :=
    Segment.encode le_rfl (fun lab hlab => ⟨(hkept lab hlab).1, (hkept lab hlab).2.1⟩)
      ((bytesAt_congr fun x _ hx => store_of_outside (.inl hx)).trans henc) h
  unfold pack
  simp only [hlimit, hcopy, hstore]
  rcases hrest with ⟨h0, rfl⟩ | ⟨h0, hlen, hoff, s, e, k, he, hseg⟩
  · -- the whole name and the root
    have hneeded : needed (nameText (kept ++ [])).length r.1 = (encode kept).length + 1 := by
      rw [needed, h0, if_neg (fun hc => hc.1 rfl), append_nil]
      rw [append_nil] at hne
      rcases hsize with ⟨-, -, h⟩ | ⟨h, -⟩
      · exact absurd h hne
      · omega
    rw [if_neg (not_not_intro h0), hneeded]
    exact ⟨_, rfl, ⟨_, hlabels (.root (Nat.le_add_right _ _) (head_eq_of_cons_eq (bytesAt_store msg' _ [0])))⟩,
      hframe' [0]⟩
  · -- some labels and a pointer
    have hneeded : needed (nameText (kept ++ rest)).length r.1 = (encode kept).length + 2 := by
      unfold needed
      rcases hsize with ⟨h, h', -⟩ | ⟨h, hpos⟩
      · rw [if_neg (by omega)]
        omega
      · rw [if_pos ⟨h0, by omega⟩]
        omega
    obtain ⟨h192, hptr⟩ := pointer_bytes hoff
    obtain ⟨hfirst, hbytes⟩ := List.cons.inj (bytesAt_store msg' (dst + (encode kept).length)
      [192 ||| UInt8.ofNat (r.2 / 256), UInt8.ofNat r.2])
    have hsecond := head_eq_of_cons_eq hbytes
    rw [if_pos h0, hneeded]
    refine ⟨_, rfl, ⟨_, hlabels (.pointer (Nat.le_add_right _ _) ?_ ?_ (he.trans hbound) (hseg.frame fun x hx => ?_))⟩,
      hframe' [_, _]⟩
    · exact (congrArg (· &&& 192) hfirst).trans h192
    · exact (congrArg₂ (fun a b : UInt8 => (a &&& 63).toNat * 256 + b.toNat) hfirst hsecond).trans hptr
    · exact hframe' _ x (.inl (by omega))

/-! ## The name of a call -/

theorem getlensLoop_label (h : ∀ c ∈ lab, c ≠ 46) (s : List UInt8) (k : ℕ) (lens : List ℕ) :
    getlensLoop (lab ++ s) k lens = getlensLoop s (k + lab.length) lens := by
  induction lab generalizing k with
  | nil => rfl
  | cons c lab ih =>
    rw [cons_append, getlensLoop, if_pos (h c mem_cons_self),
      ih (fun c hc => h c (mem_cons_of_mem _ hc)), length_cons, Nat.add_right_comm, Nat.add_assoc]

/-- **`getlens`** finds the lengths of the labels. -/
theorem getlensLoop_nameText (hlabs : ∀ lab ∈ labs, ValidLabel lab) (hne : labs ≠ [])
    (lens : List ℕ) : getlensLoop (nameText labs) 0 lens = some (lens ++ labs.map List.length) := by
  induction labs generalizing lens with
  | nil => exact absurd rfl hne
  | cons lab labs ih =>
    obtain ⟨hlab, hlen, hbytes⟩ := hlabs lab mem_cons_self
    have hpos := List.length_pos_iff.mpr hlab
    have hdot : ∀ c ∈ lab, c ≠ 46 := fun c hc => (hbytes c hc).2.1
    rcases eq_or_ne labs [] with rfl | hlabs'
    · have := getlensLoop_label hdot [] 0 lens
      rw [append_nil, Nat.zero_add] at this
      exact this.trans (if_pos ⟨hpos, hlen⟩)
    · rw [nameText_cons lab hlabs', getlensLoop_label hdot, getlensLoop, if_neg (not_not_intro rfl),
        if_pos ⟨by omega, by omega⟩, ih (fun l hl => hlabs l (mem_cons_of_mem _ hl)) hlabs', Nat.zero_add,
        append_assoc]
      rfl

theorem getLast?_nameText {labs : List (List UInt8)} (hlabs : Labels labs) : (nameText labs).getLast? ≠ some 46 := by
  induction labs with
  | nil => exact (by decide : ([] : List UInt8).getLast? ≠ some 46)
  | cons lab labs ih =>
    rcases eq_or_ne labs [] with rfl | hne
    · exact fun h => (hlabs lab mem_cons_self).2.2 (mem_of_getLast? h)
    · have hrest : Labels labs := fun l hl => hlabs l (mem_cons_of_mem _ hl)
      obtain ⟨c, s, hs⟩ := exists_cons_of_ne_nil (nameText_ne_nil hrest hne)
      have hlast := ih hrest
      rw [nameText_cons lab hne, getLast?_append_cons]
      rw [hs] at hlast ⊢
      exact hlast

/-- The text of a name, with or without a dot at its end, as `dn_comp` takes it. -/
theorem stripDot_nameText (h : ValidName labs) (dot : Bool) :
    stripDot ((nameText labs ++ if dot then [46] else []).take 255) = nameText labs := by
  have hlen := h.2
  cases dot with
  | false =>
    rw [if_neg Bool.false_ne_true, append_nil, take_of_length_le (by omega), stripDot,
      if_neg (getLast?_nameText (labels_of_valid h.1))]
  | true =>
    rw [if_pos rfl, take_of_length_le (by rw [length_append, length_singleton]; omega), stripDot,
      if_pos getLast?_concat, dropLast_concat]

/-! ## A call -/

/-- What `dn_comp` does with room for the name, which takes `len` bytes: it writes a segment there and nothing else,
and the name may be recorded. -/
structure Written (msg : ℕ → UInt8) (dst len : ℕ) (labs : List (List UInt8)) (dnptrs : Option (List ℕ)) (r : Packed) :
    Prop where
  len_eq : r.len = some len
  segment : ∃ k, Segment r.msg dst dst (dst + len) labs k
  frame : ∀ x, x < dst ∨ dst + len ≤ x → r.msg x = msg x
  dnptrs : ∀ dn ∈ r.dnptrs.getD [], dn ∈ dnptrs.getD [] ∨ dn = dst

theorem mem_record {dnptrs : Option (List ℕ)} {last : Option ℕ} {dn : ℕ}
    (h : dn ∈ (record dnptrs last dst i).getD []) : dn ∈ dnptrs.getD [] ∨ dn = dst := by
  unfold record at h
  split at h
  · split at h
    · rcases List.mem_append.mp h with h | h
      · exact .inl h
      · exact .inr (List.mem_singleton.mp h)
    · exact .inl h
  · exact .inl h

/-- **A call of `dn_comp`** for a place behind the names that have been written before. Whether it succeeds depends on
the room only, and if it does not, nothing is written. -/
theorem dnComp_spec {dnptrs : Option (List ℕ)}
    (hvalid : ValidName labs) (hdns : ∀ dn ∈ dnptrs.getD [], Earlier msg bound dn) (hbound : bound ≤ dst)
    (hfuel : bound ≤ fuel) (dot : Bool) (last : Option ℕ) :
    ∃ len ≤ (nameText labs).length + 2, ∀ space : ℤ, ∃ r,
      dnComp fuel msg (nameText labs ++ if dot then [46] else []) dst space dnptrs last = some r ∧
        (len ≤ space → Written msg dst len labs dnptrs r) ∧ (space < len → r = ⟨none, msg, dnptrs⟩) := by
  have hlen : ¬ (nameText labs).length > 253 := Nat.not_lt.mpr hvalid.2
  unfold dnComp
  simp only [stripDot_nameText hvalid dot]
  rcases eq_or_ne labs [] with rfl | hne
  · -- the root takes one byte
    refine ⟨1, by omega, fun space => ?_⟩
    split
    · exact ⟨_, rfl, fun h => by omega, fun _ => rfl⟩
    · refine ⟨_, if_pos rfl, fun _ => ⟨rfl, ⟨1, .root le_rfl ?_⟩, fun x hx => store_of_outside hx, fun dn => .inl⟩,
        fun h => by omega⟩
      exact head_eq_of_cons_eq (bytesAt_store msg dst [0])
  · obtain ⟨best, hbest, hfound⟩ := bestMatch_spec hfuel labs (dnptrs.getD []) (0, 0) hdns (.inl rfl)
    obtain ⟨msg', hpack, hseg, hframe⟩ := pack_segment hvalid.1 hne hfound hbound
    have hlens : getlens (nameText labs) = some (labs.map List.length) := getlensLoop_nameText hvalid.1 hne []
    refine ⟨needed (nameText labs).length best.1, ?_, fun space => ?_⟩
    · unfold needed
      split <;> omega
    rw [if_neg (nameText_ne_nil (labels_of_valid hvalid.1) hne)]
    simp only [hlens, hbest, Option.map_some, hpack]
    split
    · refine ⟨_, rfl, fun h => ?_, fun _ => rfl⟩
      unfold needed at h
      omega
    · refine ⟨_, rfl, fun h => ?_, fun h => if_pos h⟩
      rw [if_neg (by omega)]
      exact ⟨rfl, hseg, hframe, fun dn => mem_record⟩

/-! ## Runs -/

/-- A call of `dn_comp` for a name, with or without a dot at its end. It is for the place `gap` bytes behind the names
that have been written before; `mem` is what has been written there by the time of the call. -/
structure Call where
  labs : List (List UInt8)
  valid : ValidName labs
  dot : Bool
  gap : ℕ
  mem : ℕ → UInt8
  space : ℤ

/-- A name that has been written: where, the length that `dn_comp` has reported, and its labels. -/
structure Name where
  start : ℕ
  len : ℕ
  labs : List (List UInt8)

/-- The state between the calls: the message, the names of `dnptrs`, the end of what has been written by calls, and
the names. -/
structure World where
  msg : ℕ → UInt8
  dnptrs : Option (List ℕ)
  bound : ℕ
  names : List Name

namespace World

/-- The message before a call. -/
def memory (w : World) (c : Call) : ℕ → UInt8 := fun i => if i < w.bound then w.msg i else c.mem i

/-- `dn_comp` for a call, with the room of the call. -/
def comp (last : Option ℕ) (w : World) (c : Call) (space : ℤ) : Option Packed :=
  dnComp (w.bound + c.gap) (w.memory c) (nameText c.labs ++ if c.dot then [46] else []) (w.bound + c.gap) space w.dnptrs
    last

/-- The state after a call with the result `r`. -/
def after (w : World) (c : Call) (r : Packed) : World :=
  match r.len with
  | none => { w with msg := r.msg, dnptrs := r.dnptrs }
  | some len => ⟨r.msg, r.dnptrs, w.bound + c.gap + len, ⟨w.bound + c.gap, len, c.labs⟩ :: w.names⟩

/-- A call. -/
def step (last : Option ℕ) (w : World) (c : Call) : Option World := (w.comp last c c.space).map (w.after c)

/-- The state before the first call: `dnptrs` has the start of the message only, or is null. -/
def init (msg : ℕ → UInt8) (dnptrs : Bool) : World := ⟨msg, if dnptrs then some [] else none, 0, []⟩

/-- The invariant: the names, and those of `dnptrs` among them, are segments before the end. -/
structure Inv (w : World) : Prop where
  dnptrs : ∀ dn ∈ w.dnptrs.getD [], Earlier w.msg w.bound dn
  names : ∀ n ∈ w.names, n.start + n.len ≤ w.bound ∧ ValidName n.labs ∧
    ∃ k, Segment w.msg n.start n.start (n.start + n.len) n.labs k

theorem Inv.init (msg : ℕ → UInt8) (dnptrs : Bool) : (World.init msg dnptrs).Inv := by
  refine ⟨fun dn h => ?_, fun n h => absurd h not_mem_nil⟩
  cases dnptrs <;> exact absurd h not_mem_nil

/-- What stands behind the names does not matter for the invariant. -/
theorem Inv.frame (h : w.Inv) (hmsg : ∀ i < w.bound, msg i = w.msg i) :
    ({ w with msg := msg } : World).Inv := by
  refine ⟨fun dn hdn => ?_, fun n hn => ?_⟩
  · obtain ⟨s, e, k, labs, he, hvalid, hseg⟩ := h.dnptrs dn hdn
    exact ⟨s, e, k, labs, he, hvalid, hseg.frame fun i hi => hmsg i (by omega)⟩
  · obtain ⟨hend, hvalid, k, hseg⟩ := h.names n hn
    exact ⟨hend, hvalid, k, hseg.frame fun i hi => hmsg i (by omega)⟩

theorem Inv.mono (h : w.Inv) (hb : w.bound ≤ bound) :
    ({ w with bound := bound } : World).Inv := by
  refine ⟨fun dn hdn => ?_, fun n hn => ?_⟩
  · obtain ⟨s, e, k, labs, he, hrest⟩ := h.dnptrs dn hdn
    exact ⟨s, e, k, labs, he.trans hb, hrest⟩
  · exact ⟨(h.names n hn).1.trans hb, (h.names n hn).2⟩

theorem memory_of_lt (h : i < w.bound) : w.memory c i = w.msg i := if_pos h

theorem Inv.comp (h : w.Inv) (last : Option ℕ) (c : Call) :
    ∃ len ≤ (nameText c.labs).length + 2, ∀ space : ℤ, ∃ r, w.comp last c space = some r ∧
      (len ≤ space → Written (w.memory c) (w.bound + c.gap) len c.labs w.dnptrs r) ∧
        (space < len → r = ⟨none, w.memory c, w.dnptrs⟩) :=
  dnComp_spec c.valid (h.frame fun _ => memory_of_lt).dnptrs (Nat.le_add_right _ _) (Nat.le_add_right _ _) c.dot last

theorem after_of_written {r : Packed} {len : ℕ} (h : r.len = some len) :
    w.after c r = ⟨r.msg, r.dnptrs, w.bound + c.gap + len, ⟨w.bound + c.gap, len, c.labs⟩ :: w.names⟩ := by
  rw [after, h]

theorem Inv.after (h : w.Inv) {r : Packed} {len : ℕ}
    (hw : Written (w.memory c) (w.bound + c.gap) len c.labs w.dnptrs r) : (w.after c r).Inv := by
  obtain ⟨k, hseg⟩ := hw.segment
  have hold : World.Inv ⟨r.msg, w.dnptrs, w.bound, w.names⟩ := h.frame fun i hi => by
    rw [hw.frame i (.inl (by omega)), memory_of_lt hi]
  have hold := hold.mono (show w.bound ≤ w.bound + c.gap + len by omega)
  rw [after_of_written hw.len_eq]
  refine ⟨fun dn hdn => ?_, fun n hn => ?_⟩
  · rcases hw.dnptrs dn hdn with hdn | rfl
    · exact hold.dnptrs dn hdn
    · exact ⟨_, _, k, c.labs, le_rfl, c.valid, hseg⟩
  · rcases List.mem_cons.mp hn with rfl | hn
    · exact ⟨le_rfl, c.valid, k, hseg⟩
    · exact hold.names n hn

/-- **A call keeps the invariant**, and returns; with room for the name it writes it. -/
theorem Inv.step (h : w.Inv) (last : Option ℕ) (c : Call) :
    ∃ w', w.step last c = some w' ∧ w'.Inv ∧
      ((nameText c.labs).length + 2 ≤ c.space → w'.names.map Name.labs = c.labs :: w.names.map Name.labs) := by
  obtain ⟨len, hlen, hcomp⟩ := h.comp last c
  obtain ⟨r, hr, hroom, hfail⟩ := hcomp c.space
  refine ⟨w.after c r, by rw [World.step, hr, Option.map_some], ?_⟩
  rcases le_or_gt (len : ℤ) c.space with hle | hlt
  · refine ⟨h.after (hroom hle), fun _ => ?_⟩
    rw [after_of_written (hroom hle).len_eq]
    rfl
  · rw [hfail hlt]
    exact ⟨h.frame fun _ => memory_of_lt, fun hspace => by omega⟩

/-- A run of calls with one `lastdnptr`. -/
def run (last : Option ℕ) : World → List Call → Option World
  | w, [] => some w
  | w, c :: calls => (w.step last c).bind fun w' => run last w' calls

/-- **Every run keeps the invariant**, and all its calls return; with room for all names they are all written. -/
theorem Inv.run (last : Option ℕ) : ∀ (calls : List Call) {w : World}, w.Inv →
    ∃ w', World.run last w calls = some w' ∧ w'.Inv ∧
      ((∀ c ∈ calls, (nameText c.labs).length + 2 ≤ c.space) →
        w'.names.map Name.labs = (calls.map Call.labs).reverse ++ w.names.map Name.labs)
  | [], w, h => ⟨w, rfl, h, fun _ => rfl⟩
  | c :: calls, w, h => by
    obtain ⟨w1, hstep, h1, hname⟩ := h.step last c
    obtain ⟨w', hrun, h', hnames⟩ := Inv.run last calls h1
    refine ⟨w', by rw [World.run, hstep, Option.bind_some, hrun], h', fun hroom => ?_⟩
    rw [hnames fun c hc => hroom c (mem_cons_of_mem _ hc), hname (hroom c mem_cons_self), map_cons,
      reverse_cons, append_assoc]
    rfl

end World

/-- **The round trip of `dn_comp` and `dn_expand`.** In every run all calls return, with room for the names all of
them are written, and at the end every name is expanded from where it has been written, with the length that was
reported. A further call takes a number of bytes that does not depend on the room: with this room it reports this
length and writes nothing else, and with less it fails and writes nothing. -/
theorem dnExpand_run (last : Option ℕ) (msg : ℕ → UInt8) (dnptrs : Bool) (calls : List Call) :
    ∃ w, World.run last (World.init msg dnptrs) calls = some w ∧
      ((∀ c ∈ calls, (nameText c.labs).length + 2 ≤ c.space) →
        w.names.map Name.labs = (calls.map Call.labs).reverse) ∧
      (∀ n ∈ w.names, ∀ eom ≥ n.start + n.len, ∀ space : ℤ, (nameText n.labs).length < space →
        dnExpand w.msg eom n.start space = some (n.len, nameText n.labs)) ∧
      ∀ c : Call, ∃ len : ℕ, ∀ space : ℤ, ∃ r, w.comp last c space = some r ∧
        (len ≤ space → r.len = some len ∧
          ∀ x, x < w.bound + c.gap ∨ w.bound + c.gap + len ≤ x → r.msg x = w.memory c x) ∧
        (space < len → r.len = none ∧ r.msg = w.memory c ∧ r.dnptrs = w.dnptrs) := by
  obtain ⟨w, hrun, hinv, hnames⟩ := World.Inv.run last calls (World.Inv.init msg dnptrs)
  refine ⟨w, hrun, fun hroom => ?_, fun n hn eom heom space hspace => ?_, fun c => ?_⟩
  · rw [hnames hroom]
    exact append_nil _
  · obtain ⟨-, hvalid, k, hseg⟩ := hinv.names n hn
    rw [hseg.dnExpand hvalid.2 heom hspace, Nat.add_sub_cancel_left]
  · obtain ⟨len, -, hcomp⟩ := hinv.comp last c
    refine ⟨len, fun space => ?_⟩
    obtain ⟨r, hr, hroom, hfail⟩ := hcomp space
    refine ⟨r, hr, fun h => ⟨(hroom h).len_eq, (hroom h).frame⟩, fun h => ?_⟩
    rw [hfail h]
    exact ⟨rfl, rfl, rfl⟩

end Leblibc.Dns

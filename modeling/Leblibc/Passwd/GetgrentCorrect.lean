import Leblibc.Passwd.GetgrentMembers

/-!
# Lines of the group file

What `__getgrent_a` makes of a line `name:passwd:digits:members`. Its members are the pieces between the
commas exactly if the name is not empty and no two commas are adjacent; a comma at the end of the line makes it
read one byte beyond the zero that it has written over the newline, which is the zero that `getline` has
written, and no byte of an earlier line.

## Main results

* `fields_spec`, `finish_spec`: the two parts of the function
* `group_members`: when the members are the right ones, and that the bounds are kept in any case
-/

namespace Leblibc.Passwd

open List Option

open Leblibc.Lib

/-- A line `name:passwd:digits:members`. -/
structure GroupLine where
  name : List UInt8
  passwd : List UInt8
  digits : List UInt8
  members : List UInt8
  name_bytes : colon ∉ name ∧ 0 ∉ name
  passwd_bytes : colon ∉ passwd ∧ 0 ∉ passwd
  digits_bytes : ∀ b ∈ digits, 48 ≤ b.toNat ∧ b.toNat < 58
  members_bytes : 0 ∉ members

namespace GroupLine

/-- The line without its newline. -/
def body (g : GroupLine) : List UInt8 :=
  g.name ++ colon :: (g.passwd ++ colon :: (g.digits ++ colon :: g.members))

/-- The line. -/
def line (g : GroupLine) : List UInt8 := g.body ++ [10]

end GroupLine

/-! ## The line in the buffer -/

/-- The buffer holds the line, a zero in place of its newline, and the zero of `getline`. -/
theorem fill_holds (buf : Buf) (body : List UInt8) (b : UInt8) :
    Holds (Function.update (fill buf (body ++ [b])) ((body ++ [b]).length - 1) 0) 0 (body ++ [0, 0]) := by
  have hlen : (body ++ [b]).length - 1 = body.length := by simp
  rw [hlen]
  refine holds_append.mpr ⟨Holds.update (holds_of_getElem fun i hi => ?_) (Or.inr (by omega)), ?_, ?_, trivial⟩
  · rw [Nat.zero_add, fill, append_assoc, getElem?_append_left hi, getElem?_eq_getElem hi]
    rfl
  · rw [Nat.zero_add, Function.update_self]
  · rw [Function.update_of_ne (by omega), fill]
    simp

section Fields

variable {lim : ℕ} {buf : Buf} {n p d : List UInt8} {x b : UInt8}

theorem fieldsFrom_spec {s : ℕ} (h : Holds buf s (p ++ colon :: (d ++ [b]))) (hp : colon ∉ p ∧ 0 ∉ p)
    (hd : ∀ c ∈ d, 48 ≤ c.toNat ∧ c.toNat < 58) (hb : ¬ (48 ≤ b.toNat ∧ b.toNat < 58))
    (hlim : s + p.length + d.length + 1 ≤ lim) :
    ∃ f buf', fieldsFrom lim buf s = some (if b = colon then some f else none, buf') ∧
      f.mems = s + p.length + d.length + 2 ∧ ∀ j, s + p.length + d.length + 1 < j → buf' j = buf j := by
  rw [holds_append] at h
  obtain ⟨hp', hc, hd'⟩ := h
  have hcolon : strchr lim buf colon (lim + 2) s = some (some (s + p.length)) :=
    strchr_spec (holds_append.mpr ⟨hp', hc, trivial⟩) hp.1 hp.2 (by omega) (by omega)
  have hd'' : Holds (Function.update buf (s + p.length) 0) (s + p.length + 1) (d ++ [b]) :=
    hd'.update (Or.inl (by omega))
  obtain ⟨gid, hgid⟩ := atou_spec hd'' hd hb (show s + p.length + 1 + d.length ≤ lim by omega)
    (show d.length < lim + 2 by omega) 0
  have hnext : Function.update buf (s + p.length) 0 (s + p.length + 1 + d.length) = b :=
    (holds_append.mp hd'').2.1
  unfold fieldsFrom
  rw [hcolon]
  simp only [some_bind]
  rw [hgid, some_bind]
  rw [read_of_le (by omega), hnext, some_bind]
  refine ⟨⟨0, s, gid, s + p.length + 1 + d.length + 1⟩, ?_⟩
  by_cases hbc : b = colon
  · rw [if_neg (not_not.mpr hbc), if_pos hbc]
    refine ⟨_, rfl, by show s + p.length + 1 + d.length + 1 = _; omega, fun j hj => ?_⟩
    rw [Function.update_of_ne (by omega), Function.update_of_ne (by omega)]
  · rw [if_pos hbc, if_neg hbc]
    refine ⟨_, rfl, by show s + p.length + 1 + d.length + 1 = _; omega, fun j hj => ?_⟩
    rw [Function.update_of_ne (by omega)]

/-- The fields of a line: after its first byte come two colons and digits. If a colon follows them, the line is
accepted. The bytes after it are left. -/
theorem fields_spec (h : Holds buf 0 (x :: (n ++ colon :: (p ++ colon :: (d ++ [b])))))
    (hn : colon ∉ n ∧ 0 ∉ n) (hp : colon ∉ p ∧ 0 ∉ p) (hd : ∀ c ∈ d, 48 ≤ c.toNat ∧ c.toNat < 58)
    (hb : ¬ (48 ≤ b.toNat ∧ b.toNat < 58)) (hlim : n.length + p.length + d.length + 3 ≤ lim) :
    ∃ f buf', fields lim buf = some (if b = colon then some f else none, buf') ∧
      f.mems = n.length + p.length + d.length + 4 ∧
      ∀ j, n.length + p.length + d.length + 3 < j → buf' j = buf j := by
  obtain ⟨-, h⟩ := h
  rw [holds_append] at h
  obtain ⟨hn', hc, h⟩ := h
  have hcolon : strchr lim buf colon (lim + 2) 1 = some (some (1 + n.length)) :=
    strchr_spec (holds_append.mpr ⟨hn', hc, trivial⟩) hn.1 hn.2 (by omega) (by omega)
  have h' : Holds (Function.update buf (1 + n.length) 0) (1 + n.length + 1) (p ++ colon :: (d ++ [b])) :=
    h.update (Or.inl (by omega))
  obtain ⟨f, buf', hrun, hmems, hframe⟩ := fieldsFrom_spec h' hp hd hb
    (show 1 + n.length + 1 + p.length + d.length + 1 ≤ lim by omega)
  refine ⟨f, buf', ?_, by omega, fun j hj => ?_⟩
  · unfold fields
    rw [hcolon]
    exact hrun
  · rw [hframe j (by omega), Function.update_of_ne (by omega)]

end Fields

/-! ## The members -/

section Finish

variable {a : Arch} {lim : ℕ} {ok : Bool} {f : Fields} {buf : Buf} {m : List UInt8}
  {rest : List (List UInt8)}

theorem count_eq (hm : HoldsString buf f.mems m) (hlim : f.mems + m.length ≤ lim) :
    countMembers lim buf (lim + 2) f.mems (if buf f.mems ≠ 0 then 1 else 0) = some (pieces m).length := by
  rw [countMembers_spec hm hlim (by omega), length_pieces]
  cases m with
  | nil => rw [if_neg (not_not.mpr hm.1.1), if_pos rfl]
  | cons b m =>
    obtain ⟨hs, h0, -⟩ := hm.tail
    rw [hs, if_pos h0, if_neg (cons_ne_nil b m)]

theorem finish_eq (hm : HoldsString buf f.mems m) (hlim : f.mems + m.length ≤ lim) :
    finish a lim ok f buf rest =
      if calloc a a.ptrSize ((pieces m).length + 1) ok then
        (members lim buf f.mems (pieces m).length).bind fun r =>
          some ⟨0, some r.1, some r.2, (pieces m).length, some f, rest⟩
      else some ⟨enomem, none, none, (pieces m).length, none, rest⟩ := by
  unfold finish
  rw [read_of_le (by omega), some_bind]
  rw [count_eq hm hlim]
  rfl

/-- **The group of a line**: its members as the code separates them. -/
theorem finish_spec (rest : List (List UInt8)) (hm : HoldsString buf f.mems m) (hlim : f.mems + m.length ≤ lim)
    (hover : overruns m = true → f.mems + m.length + 1 ≤ lim ∧ buf (f.mems + m.length + 1) = 0)
    (hok : calloc a a.ptrSize ((pieces m).length + 1) ok = true) :
    ∃ buf' ptrs k, finish a lim ok f buf rest =
        some ⟨0, some buf', some (ptrs.map some ++ none :: List.replicate k none), (pieces m).length, some f,
          rest⟩ ∧
      ptrs.length + k = (pieces m).length ∧ List.Forall₂ (HoldsString buf') ptrs (loosePieces m) := by
  obtain ⟨buf', ptrs, k, hrun, hlen, hstr⟩ := members_spec hm hlim hover
  refine ⟨buf', ptrs, k, ?_, hlen, hstr⟩
  rw [finish_eq hm hlim, if_pos hok, hrun]
  rfl

theorem finish_overrun (hm : HoldsString buf f.mems m) (hlim : lim = f.mems + m.length)
    (hover : overruns m = true) {o : Outcome} (ho : finish a lim ok f buf rest = some o) : o.res = none := by
  have hnone : members lim buf f.mems (pieces m).length = none := by
    cases m with
    | nil => cases hover
    | cons b m =>
      obtain ⟨hs, h0, -⟩ := hm.tail
      unfold members
      simp only [bind_eq_bind]
      rw [read_of_le (by omega), hs, bind_some]
      rw [if_pos h0, bind_eq_none_iff]
      intro mem _
      rw [splitMembers_overrun hm hlim hover]
      rfl
  rw [finish_eq hm hlim.ge, hnone] at ho
  split at ho
  · cases ho
  · cases ho
    rfl

end Finish

/-! ## The whole function -/

/-- The outcome is the group of the line before `rest`, and its members are the pieces of the field `m`; the
entry after the last one is null. -/
structure Outcome.IsGroup (o : Outcome) (rest : List (List UInt8)) (m : List UInt8) : Prop where
  rest_eq : o.rest = rest
  found : o.res ≠ none
  members : ∃ buf ptrs tail, o.line = some buf ∧ o.mem = some (ptrs.map some ++ none :: tail) ∧
    ptrs.length + tail.length = o.nmem ∧ List.Forall₂ (HoldsString buf) ptrs (pieces m)

theorem ptrs_unique {ptrs ptrs' : List ℕ} {tail tail' : Ptrs}
    (h : ptrs.map some ++ none :: tail = ptrs'.map some ++ none :: tail') : ptrs = ptrs' := by
  induction ptrs generalizing ptrs' with
  | nil =>
    cases ptrs' with
    | nil => rfl
    | cons q qs => cases h
  | cons p ps ih =>
    cases ptrs' with
    | nil => cases h
    | cons q qs =>
      obtain ⟨hpq, hrest⟩ := List.cons.inj h
      rw [ih hrest, some.inj hpq]

theorem strings_unique {buf : Buf} {ptrs : List ℕ} {l l' : List (List UInt8)}
    (h : List.Forall₂ (HoldsString buf) ptrs l) (h' : List.Forall₂ (HoldsString buf) ptrs l') : l = l' := by
  induction h generalizing l' with
  | nil =>
    cases h'
    rfl
  | cons hp _ ih =>
    cases h' with
    | cons hp' hps' => rw [hp.unique hp', ih hps']

theorem rest_lt {a : Arch} {slack : ℕ} {ok : Bool} {err nmem : ℕ} {mem : Option Ptrs}
    {lines : List (List UInt8)} {buf : Buf} {o : Outcome}
    (h : getgrentA a slack ok err mem nmem lines buf = some o) (ho : o.res ≠ none) :
    o.rest.length < lines.length := by
  induction lines generalizing buf with
  | nil =>
    cases h
    exact absurd rfl ho
  | cons line rest ih =>
    obtain ⟨⟨f, buf'⟩, -, h⟩ := Option.bind_eq_some_iff.mp h
    cases f with
    | none => exact Nat.lt_succ_of_lt (ih h)
    | some f =>
      have hrest : o.rest = rest := by
        obtain ⟨b, -, h⟩ := Option.bind_eq_some_iff.mp h
        obtain ⟨n, -, h⟩ := Option.bind_eq_some_iff.mp h
        split at h
        · obtain ⟨r, -, h⟩ := Option.bind_eq_some_iff.mp h
          cases h
          rfl
        · cases h
          rfl
      rw [hrest]
      exact Nat.lt_succ_self _

/-- The members of a group are the pieces of the field that the loop separates, within the limit. -/
theorem group_of_finish {a : Arch} {slack : ℕ} {ok : Bool} {f : Fields} {buf : Buf} {m m' : List UInt8}
    {rest : List (List UInt8)} {o : Outcome} (hm : HoldsString buf f.mems m) (hz : buf (f.mems + m.length + 1) = 0)
    (ho : finish a (f.mems + m.length + slack) ok f buf rest = some o) (hgroup : o.IsGroup rest m') :
    (slack = 0 → overruns m = false) ∧ loosePieces m = pieces m' := by
  have hover : slack = 0 → overruns m = false := by
    intro hs
    by_contra hover
    rw [hs] at ho
    exact hgroup.found (finish_overrun hm rfl (Bool.eq_true_of_not_eq_false hover) ho)
  refine ⟨hover, ?_⟩
  have hok : calloc a a.ptrSize ((pieces m).length + 1) ok = true := by
    by_contra hfail
    rw [finish_eq hm (by omega), if_neg hfail] at ho
    cases ho
    exact hgroup.found rfl
  have hroom : overruns m = true →
      f.mems + m.length + 1 ≤ f.mems + m.length + slack ∧ buf (f.mems + m.length + 1) = 0 := by
    intro h
    refine ⟨?_, hz⟩
    rcases Nat.eq_zero_or_pos slack with h0 | h1
    · rw [hover h0] at h
      cases h
    · omega
  obtain ⟨buf', ptrs, k, hrun, -, hstr⟩ := finish_spec rest hm (Nat.le_add_right ..) hroom hok
  obtain ⟨b, ptrs', tail, hline, hmem, -, hstr'⟩ := hgroup.members
  rw [hrun] at ho
  cases ho
  cases hline
  obtain rfl := ptrs_unique (some.inj hmem)
  exact strings_unique hstr hstr'

theorem exists_digits {l : List UInt8} (hl : 0 ∈ l) : ∃ d b r, l = d ++ b :: r ∧
    (∀ c ∈ d, 48 ≤ c.toNat ∧ c.toNat < 58) ∧ ¬ (48 ≤ b.toNat ∧ b.toNat < 58) := by
  induction l with
  | nil => cases hl
  | cons b l ih =>
    by_cases hb : 48 ≤ b.toNat ∧ b.toNat < 58
    · have hne : (0 : UInt8) ≠ b := by
        rintro rfl
        exact absurd hb (by decide)
      obtain ⟨d, c, r, rfl, hd, hc⟩ := ih ((List.mem_cons.mp hl).resolve_left hne)
      refine ⟨b :: d, c, r, rfl, fun x hx => ?_, hc⟩
      rcases List.mem_cons.mp hx with rfl | hx
      · exact hb
      · exact hd x hx
    · exact ⟨[], b, l, rfl, nofun, hb⟩

/-- The pieces of a part of a field are not those of the field. -/
theorem loosePieces_ne {d m : List UInt8} (hd : comma ∉ d) :
    loosePieces m ≠ pieces (d ++ colon :: m) := by
  intro heq
  have hhead := congrArg head? heq
  have hne : d ++ colon :: m ≠ [] := by simp
  have hwhile : (d ++ colon :: m).takeWhile (· ≠ comma) = d ++ colon :: m.takeWhile (· ≠ comma) := by
    have hpos : ∀ c ∈ d, decide (c ≠ comma) = true := by
      intro c hc
      rw [decide_eq_true_iff]
      rintro rfl
      exact hd hc
    rw [takeWhile_append_of_pos hpos]
    rfl
  rw [pieces, if_neg hne, head_splitOn, hwhile, loosePieces] at hhead
  split at hhead
  · cases hhead
  · rw [head_looseSplit, some.injEq] at hhead
    have := congrArg List.length hhead
    rw [length_append, length_cons] at this
    omega

section Parse

variable (a : Arch) (slack : ℕ) (ok : Bool) (err : ℕ) (mem : Option Ptrs) (nmem : ℕ) (g : GroupLine)
  (rest : List (List UInt8)) (buf : Buf)

/-- The line `g` at the head of a file is parsed, with the right members, and without reading more than `slack`
bytes behind its end. -/
def Parses : Prop :=
  ∃ o, getgrentA a slack ok err mem nmem (g.line :: rest) buf = some o ∧ o.IsGroup rest g.members

/-- The buffer when a line is parsed. -/
def GroupLine.buffer (g : GroupLine) (buf : Buf) : Buf :=
  Function.update (fill buf g.line) (g.line.length - 1) 0

variable {g} in
theorem getgrentA_of_name (hname : g.name ≠ []) :
    ∃ f buf', getgrentA a slack ok err mem nmem (g.line :: rest) buf =
        finish a (g.line.length - 1 + slack) ok f buf' rest ∧
      HoldsString buf' f.mems g.members ∧ f.mems + g.members.length = g.line.length - 1 ∧
      buf' (f.mems + g.members.length + 1) = 0 := by
  obtain ⟨x, n, hn⟩ := exists_cons_of_ne_nil hname
  have hbytes := g.name_bytes
  rw [hn, mem_cons, mem_cons, not_or, not_or] at hbytes
  have hholds : Holds (g.buffer buf) 0 ((x :: (n ++ colon :: (g.passwd ++ colon :: (g.digits ++ [colon])))) ++
      (g.members ++ [0, 0])) := by
    have hbody : g.body ++ [0, 0] = (x :: (n ++ colon :: (g.passwd ++ colon :: (g.digits ++ [colon])))) ++
        (g.members ++ [0, 0]) := by
      simp [GroupLine.body, hn]
    rw [← hbody]
    exact fill_holds buf g.body 10
  have hlen : g.line.length = n.length + g.passwd.length + g.digits.length + g.members.length + 5 := by
    simp only [GroupLine.line, GroupLine.body, hn, length_append, length_cons, length_nil]
    omega
  obtain ⟨hfields, hmembers⟩ := holds_append.mp hholds
  obtain ⟨f, buf', hrun, hmems, hframe⟩ := fields_spec hfields ⟨hbytes.1.2, hbytes.2.2⟩ g.passwd_bytes
    g.digits_bytes (by decide) (show _ ≤ g.line.length - 1 + slack by omega)
  have hplace : 0 + (x :: (n ++ colon :: (g.passwd ++ colon :: (g.digits ++ [colon])))).length = f.mems := by
    simp only [length_append, length_cons, length_nil]
    omega
  rw [hplace] at hmembers
  have hmembers' : Holds buf' f.mems (g.members ++ [0, 0]) :=
    hmembers.congr fun j hj _ => hframe j (by omega)
  obtain ⟨hm, hz, hz', -⟩ := holds_append.mp hmembers'
  refine ⟨f, buf', ?_, ⟨holds_append.mpr ⟨hm, hz, trivial⟩, g.members_bytes⟩, by omega, hz'⟩
  rw [getgrentA]
  simp only [bind_eq_bind]
  show (fields _ (g.buffer buf)).bind _ = _
  rw [hrun, if_pos rfl]
  rfl

variable {a slack ok err mem nmem g rest buf}

/-- A line without a name is not parsed so: the colon at its head is taken for a part of the name. -/
theorem not_parses_of_name_nil (hname : g.name = []) : ¬ Parses a slack ok err mem nmem g rest buf := by
  rintro ⟨o, ho, hgroup⟩
  -- the number that is read is at the head of the members
  obtain ⟨d, b, r, hsplit, hd, hb⟩ := exists_digits (l := g.members ++ [0]) (by simp)
  have hdigits : colon ∉ g.digits ∧ 0 ∉ g.digits :=
    ⟨fun h => absurd (g.digits_bytes _ h) (by decide), fun h => absurd (g.digits_bytes _ h) (by decide)⟩
  have hholds : Holds (g.buffer buf) 0
      ((colon :: (g.passwd ++ colon :: (g.digits ++ colon :: (d ++ [b])))) ++ (r ++ [0])) := by
    have hbody : g.body ++ [0, 0] =
        (colon :: (g.passwd ++ colon :: (g.digits ++ colon :: (d ++ [b])))) ++ (r ++ [0]) := by
      have := congrArg (· ++ [0]) hsplit
      simp only [append_assoc, cons_append, nil_append] at this
      simp only [GroupLine.body, hname, nil_append, cons_append, append_assoc, this]
    rw [← hbody]
    exact fill_holds buf g.body 10
  have hlen : g.line.length = g.passwd.length + g.digits.length + g.members.length + 4 := by
    simp only [GroupLine.line, GroupLine.body, hname, length_append, length_cons, length_nil]
    omega
  have hlen' := congrArg List.length hsplit
  simp only [length_append, length_cons, length_nil] at hlen'
  obtain ⟨hfields, hrest⟩ := holds_append.mp hholds
  obtain ⟨f, buf', hrun, hmems, hframe⟩ := fields_spec hfields g.passwd_bytes hdigits hd hb
    (show _ ≤ g.line.length - 1 + slack by omega)
  change (fields _ (g.buffer buf)).bind _ = _ at ho
  rw [hrun] at ho
  by_cases hbc : b = colon
  · -- what is taken for the members is only a part of them
    subst hbc
    obtain ⟨m, hr, hmem⟩ : ∃ m, r = m ++ [0] ∧ g.members = d ++ colon :: m := by
      rcases eq_nil_or_concat r with rfl | ⟨m, z, rfl⟩
      · have hlast := congrArg getLast? hsplit
        simp only [getLast?_append] at hlast
        cases hlast
      · rw [concat_eq_append] at hsplit ⊢
        have hsplit' : g.members ++ [0] = (d ++ colon :: m) ++ [z] := by simpa using hsplit
        obtain ⟨hm, hz⟩ := append_inj' hsplit' rfl
        exact ⟨m, by rw [List.singleton_inj.mp hz], hm⟩
    have hplace : 0 + (colon :: (g.passwd ++ colon :: (g.digits ++ colon :: (d ++ [colon])))).length = f.mems := by
      simp only [length_append, length_cons, length_nil]
      omega
    rw [hplace, hr, append_assoc] at hrest
    have hrest' : Holds buf' f.mems (m ++ ([0] ++ [0])) := hrest.congr fun j hj _ => hframe j (by omega)
    obtain ⟨hm, hz, hz', -⟩ := holds_append.mp hrest'
    have hzero : 0 ∉ m := fun h => g.members_bytes (hmem ▸ mem_append_right d (mem_cons_of_mem _ h))
    have hlim : g.line.length - 1 + slack = f.mems + m.length + slack := by
      rw [hr] at hlen'
      simp only [length_append, length_cons, length_nil] at hlen'
      omega
    rw [hlim] at ho
    obtain ⟨-, hpieces⟩ := group_of_finish ⟨holds_append.mpr ⟨hm, hz, trivial⟩, hzero⟩ hz' ho hgroup
    rw [hmem] at hpieces
    exact loosePieces_ne (fun h => absurd (hd _ h) (by decide)) hpieces
  · -- the line is skipped
    rw [if_neg hbc] at ho
    have := rest_lt ho hgroup.found
    rw [hgroup.rest_eq] at this
    omega

/-- The pieces of the field that the loop separates are the pieces between the commas. -/
theorem loosePieces_eq_iff (m : List UInt8) : loosePieces m = pieces m ↔ Separate m := by
  unfold loosePieces pieces
  split
  · rename_i h
    rw [h]
    exact iff_of_true rfl isChain_nil
  · exact looseSplit_eq_iff m

theorem parses_iff (hname : g.name ≠ []) (hok : calloc a a.ptrSize ((pieces g.members).length + 1) ok = true) :
    Parses a slack ok err mem nmem g rest buf ↔
      Separate g.members ∧ (slack = 0 → g.members.getLast? ≠ some comma) := by
  obtain ⟨f, buf', hrun, hm, hlen, hz⟩ := getgrentA_of_name a slack ok err mem nmem rest buf hname
  rw [← hlen] at hrun
  constructor
  · rintro ⟨o, ho, hgroup⟩
    rw [hrun] at ho
    obtain ⟨hover, hpieces⟩ := group_of_finish hm hz ho hgroup
    have hsep := (loosePieces_eq_iff _).mp hpieces
    refine ⟨hsep, fun hs hlast => ?_⟩
    rw [(overruns_iff hsep).mpr hlast] at hover
    cases hover hs
  · rintro ⟨hsep, hlast⟩
    have hroom : overruns g.members = true → f.mems + g.members.length + 1 ≤ f.mems + g.members.length + slack ∧
        buf' (f.mems + g.members.length + 1) = 0 := by
      intro h
      refine ⟨?_, hz⟩
      rcases Nat.eq_zero_or_pos slack with h0 | h1
      · exact absurd ((overruns_iff hsep).mp h) (hlast h0)
      · omega
    obtain ⟨buf'', ptrs, k, hfin, hk, hstr⟩ := finish_spec rest hm (Nat.le_add_right ..) hroom hok
    refine ⟨_, hrun.trans hfin, rfl, nofun, buf'', ptrs, _, rfl, rfl, ?_, ?_⟩
    · rw [length_replicate]
      exact hk
    · rw [← (loosePieces_eq_iff _).mpr hsep]
      exact hstr

end Parse

/-- **The members of a group.** For every line `name:passwd:digits:members`, whatever is in the buffer and after
the line, and if the allocation succeeds: the line is parsed with the pieces between the commas as members, and
without reading a byte behind the zero in place of its newline, exactly if its name is not empty and every comma
of the members is followed by a byte that is not a comma. With the zero of `getline` behind it, it may also end
in a comma. Whatever the commas are, no byte behind that is read, and the pointers that are stored, of which
the one after the last member is null, are within the array. -/
theorem group_members (a : Arch) (ok : Bool) (err : ℕ) (mem : Option Ptrs) (nmem : ℕ) (g : GroupLine)
    (rest : List (List UInt8)) (buf : Buf) (hok : calloc a a.ptrSize ((pieces g.members).length + 1) ok = true) :
    (Parses a 0 ok err mem nmem g rest buf ↔
      g.name ≠ [] ∧ Separate g.members ∧ g.members.getLast? ≠ some comma) ∧
    (Parses a 1 ok err mem nmem g rest buf ↔ g.name ≠ [] ∧ Separate g.members) ∧
    (g.name ≠ [] → ∃ (o : Outcome) (ptrs : List ℕ) (tail : Ptrs),
      getgrentA a 1 ok err mem nmem (g.line :: rest) buf = some o ∧ o.rest = rest ∧
      o.mem = some (ptrs.map some ++ none :: tail) ∧ ptrs.length + tail.length = o.nmem) := by
  by_cases hname : g.name = []
  · exact ⟨iff_of_false (not_parses_of_name_nil hname) fun h => h.1 hname,
      iff_of_false (not_parses_of_name_nil hname) fun h => h.1 hname, fun h => absurd hname h⟩
  · refine ⟨?_, ?_, fun _ => ?_⟩
    · rw [parses_iff hname hok]
      exact ⟨fun h => ⟨hname, h.1, h.2 rfl⟩, fun h => ⟨h.2.1, fun _ => h.2.2⟩⟩
    · rw [parses_iff hname hok]
      exact ⟨fun h => ⟨hname, h.1⟩, fun h => ⟨h.2, nofun⟩⟩
    · obtain ⟨f, buf', hrun, hm, hlen, hz⟩ := getgrentA_of_name a 1 ok err mem nmem rest buf hname
      rw [← hlen] at hrun
      obtain ⟨buf'', ptrs, k, hfin, hk, -⟩ := finish_spec rest hm (Nat.le_add_right ..)
        (fun _ => ⟨le_refl _, hz⟩) hok
      refine ⟨_, ptrs, _, hrun.trans hfin, rfl, rfl, ?_⟩
      rw [length_replicate]
      exact hk

/-- The line `g:x:0:` with the given members. -/
def GroupLine.of (members : List UInt8) (h : 0 ∉ members) : GroupLine where
  name := [103]
  passwd := [120]
  digits := [48]
  members := members
  name_bytes := by decide
  passwd_bytes := by decide
  digits_bytes := by simp
  members_bytes := h

/-- The line `g:x:0:a,b`. -/
def twoMembers : GroupLine := GroupLine.of [97, 44, 98] (by decide)

/-- The line `g:x:0:a,,b`. -/
def adjacentCommas : GroupLine := GroupLine.of [97, 44, 44, 98] (by decide)

/-- The line `g:x:0:a,b` has the members `a` and `b`. -/
theorem group_members_two : Parses .x86_64 0 true 0 none 0 twoMembers [] fun _ => 0 := by
  have hsep : Separate twoMembers.members := by
    simp [Separate, twoMembers, GroupLine.of, comma]
  have hok : calloc .x86_64 (Arch.ptrSize .x86_64) ((pieces twoMembers.members).length + 1) true = true := by
    rfl
  exact (group_members .x86_64 true 0 none 0 twoMembers [] (fun _ => 0) hok).1.mpr
    ⟨by decide, hsep, by decide⟩

/-- The line `g:x:0:a,,b` is taken to have two members, `a` and `,b`, and not the three pieces of the
field. -/
theorem adjacent_commas : ¬ Parses .x86_64 1 true 0 none 0 adjacentCommas [] fun _ => 0 := by
  rintro ⟨o, ho, hgroup⟩
  have hmem : (getgrentA .x86_64 1 true 0 none 0 [adjacentCommas.line] fun _ => 0).bind (·.mem) =
      some ([6, 8].map some ++ none :: [none]) := by rfl
  obtain ⟨buf, ptrs, tail, -, hptrs, -, hstr⟩ := hgroup.members
  rw [ho, bind_some, hptrs] at hmem
  obtain rfl := ptrs_unique (some.inj hmem)
  have := hstr.length_eq
  cases this

end Leblibc.Passwd

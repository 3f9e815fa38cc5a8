import Leblibc.Stdio.Read

/-!
# Buffered input is unbuffered input

The unbuffered model hands out pushed-back bytes last-in first-out and otherwise takes the next item
the descriptor delivers, one at a time. A stream with a buffer of any size over a descriptor that
delivers its bytes in portions of any size gives the same replies: what is unread in its buffer is the
pushed-back bytes followed by bytes the descriptor has delivered ahead of time.

## Main results

* `stdioRead_spec`, `getc_spec`, `fread_spec`, `ungetc_spec`: one call against the unbuffered model
* `input_refines_unbuffered`: every run of calls is a run of the unbuffered model
-/

namespace Leblibc.Stdio

open Lib List

/-! ## The unbuffered model -/

/-- A stream without a buffer: the pushed-back bytes, the items still to be delivered, and the two
flags. -/
structure Unbuffered where
  pushback : List UInt8
  input : List InItem
  eof : Bool
  err : Bool

/-- The next byte: the byte pushed back last, or what the descriptor delivers next, unless the end of
the file has been seen. -/
def Unbuffered.next (u : Unbuffered) : Option UInt8 × Unbuffered :=
  match u.pushback with
  | b :: p => (some b, { u with pushback := p })
  | [] =>
    if u.eof then (none, u)
    else
      match u.input with
      | [] => (none, { u with eof := true })
      | .byte b :: items => (some b, { u with input := items })
      | .eof :: items => (none, { u with input := items, eof := true })
      | .fail :: items => (none, { u with input := items, err := true })

/-- Up to `n` bytes, one after another, until there is none. -/
def Unbuffered.take : ℕ → Unbuffered → List UInt8 × Unbuffered
  | 0, u => ([], u)
  | n + 1, u =>
    match u.next with
    | (none, u') => ([], u')
    | (some b, u') => (b :: (Unbuffered.take n u').1, (Unbuffered.take n u').2)

/-- A call on a stream open for reading. -/
inductive InCall where
  | getc
  | fread (size nmemb : ℕ)
  | ungetc (c : ℤ)

/-- What a call hands back: its return value, and the bytes it stored for the caller. -/
structure InReply where
  ret : ℤ
  bytes : List UInt8

/-- The return value of `getc`. -/
def ofByte : Option UInt8 → ℤ
  | some b => b.toNat
  | none => EOF

/-- What a call replies in the unbuffered model. A byte is pushed back whenever fewer than `UNGET`
bytes are pushed back already; otherwise it may be refused. -/
inductive Unbuffered.Step (a : Arch) (u : Unbuffered) : InCall → InReply → Unbuffered → Prop where
  | getc : Step a u .getc ⟨ofByte u.next.1, []⟩ u.next.2
  | fread (size nmemb : ℕ) :
      Step a u (.fread size nmemb)
        ⟨((if (u.take (a.wrap (size * nmemb))).1.length = a.wrap (size * nmemb) then
            (if size = 0 then 0 else nmemb)
          else (u.take (a.wrap (size * nmemb))).1.length / size : ℕ) : ℤ),
          (u.take (a.wrap (size * nmemb))).1⟩ (u.take (a.wrap (size * nmemb))).2
  | ungetcEOF : Step a u (.ungetc EOF) ⟨EOF, []⟩ u
  | ungetc {c : ℤ} (hc : c ≠ EOF) :
      Step a u (.ungetc c) ⟨(uchar c).toNat, []⟩
        { u with pushback := uchar c :: u.pushback, eof := false }
  | refused {c : ℤ} (hc : c ≠ EOF) (hfull : UNGET ≤ u.pushback.length) :
      Step a u (.ungetc c) ⟨EOF, []⟩ u

theorem Unbuffered.take_bytes (bs : List UInt8) (m : ℕ) :
    ∀ (items : List InItem) (err : Bool),
      Unbuffered.take (bs.length + m) ⟨[], bs.map .byte ++ items, false, err⟩ =
        (bs ++ (Unbuffered.take m ⟨[], items, false, err⟩).1,
          (Unbuffered.take m ⟨[], items, false, err⟩).2) := by
  induction bs with
  | nil =>
    intro items err
    simp
  | cons b bs ih =>
    intro items err
    have hlen : (b :: bs).length + m = (bs.length + m) + 1 := by
      simp only [length_cons]
      omega
    rw [hlen]
    simp [Unbuffered.take, Unbuffered.next, ih]

/-! ## One read of the descriptor -/

theorem leading_append (items : List InItem) :
    ∃ rest, items = (leading items).map .byte ++ rest := by
  induction items with
  | nil => exact ⟨[], rfl⟩
  | cons i items ih =>
    cases i with
    | byte b =>
      obtain ⟨rest, h⟩ := ih
      exact ⟨rest, by simp only [leading, map_cons, cons_append, ← h]⟩
    | eof => exact ⟨.eof :: items, rfl⟩
    | fail => exact ⟨.fail :: items, rfl⟩

theorem portion_bounds (shorts : List ℕ) {most : ℕ} (h : 1 ≤ most) :
    1 ≤ portion shorts most ∧ portion shorts most ≤ most := by
  cases shorts <;> simp only [portion] <;> omega

/-- A read with room either delivers at least one of the bytes that come next, or finds the end of the
file or fails; the result is recorded. -/
inductive ReadEnd (d : Descriptor) (room : ℕ) : List UInt8 × ℤ × Descriptor → Prop where
  | bytes {d' : Descriptor} (bs : List UInt8) (hne : bs ≠ []) (hle : bs.length ≤ room)
      (hin : d.input = bs.map .byte ++ d'.input) (hlog : d'.reads = d.reads ++ [(bs.length : ℤ)]) :
      ReadEnd d room (bs, bs.length, d')
  | eof {d' : Descriptor} (hin : d.input = [] ∧ d'.input = [] ∨ d.input = .eof :: d'.input)
      (hlog : d'.reads = d.reads ++ [0]) : ReadEnd d room ([], 0, d')
  | fail {d' : Descriptor} (hin : d.input = .fail :: d'.input) (hlog : d'.reads = d.reads ++ [-1]) :
      ReadEnd d room ([], -1, d')

theorem read_spec (d : Descriptor) {room : ℕ} (hroom : 0 < room) : ReadEnd d room (d.read room) := by
  unfold Descriptor.read
  split
  · rename_i hin
    exact .eof (Or.inl ⟨hin, hin⟩) rfl
  · rename_i items hin
    exact .eof (Or.inr hin) rfl
  · rename_i items hin
    exact .fail hin rfl
  · rename_i b items hin
    obtain ⟨rest, hrest⟩ := leading_append (.byte b :: items)
    generalize hlead : leading (.byte b :: items) = lead at hrest ⊢
    have hpos : 0 < lead.length := by
      rw [← hlead]
      simp [leading]
    have hn1 := portion_bounds d.shorts (show 1 ≤ min room lead.length by omega)
    generalize portion d.shorts (min room lead.length) = n at hn1 ⊢
    obtain ⟨h1, hle⟩ := hn1
    have hl : n ≤ lead.length := hle.trans (min_le_right _ _)
    have hlen : (lead.take n).length = n := by simpa using hl
    have hcast : (n : ℤ) = ((lead.take n).length : ℤ) := by rw [hlen]
    simp only
    rw [hcast]
    refine .bytes (lead.take n) ?_ (by omega) ?_ (by simp)
    · intro hnil
      rw [hnil] at hlen
      simp at hlen
      omega
    · -- the items delivered are the first `n`, and they are bytes
      rw [hin, hrest]
      rw [drop_append_of_le_length (by simpa using hl), ← append_assoc, ← map_drop,
        ← map_append, take_append_drop]

/-! ## The simulation -/

/-- The unread part of the buffer: the pushed-back bytes `p`, then the bytes `q` delivered ahead of
time. It begins at most `p.length` bytes before `buf`. -/
structure InBuffer (f : FILE) (p q : List UInt8) : Prop where
  low : f.buf ≤ f.rpos + UNGET
  mid : f.rpos ≤ f.rend
  high : f.rend ≤ f.buf + f.bufSize
  load_eq : load f.mem f.rpos (f.rend - f.rpos) = p ++ q
  room : f.buf ≤ f.rpos + p.length

/-- A stream that has not been read from: its pointers are null. -/
structure NotRead (f : FILE) (p q : List UInt8) : Prop where
  rpos_eq : f.rpos = 0
  rend_eq : f.rend = 0
  pushback_eq : p = []
  ahead_eq : q = []

/-- The stream `f` over the descriptor `d` stands for the unbuffered state `u`; `q` are the bytes
delivered ahead of time. -/
structure SimWith (f : FILE) (d : Descriptor) (u : Unbuffered) (q : List UInt8) : Prop where
  rd : f.noRd = false
  wr : f.wpos = f.wbase
  buf_gt : UNGET < f.buf
  eof_eq : u.eof = f.eof
  err_eq : u.err = f.err
  unread : NotRead f u.pushback q ∨ InBuffer f u.pushback q
  input_eq : u.input = q.map .byte ++ d.input
  ended : f.eof = true → q = []

/-- The stream `f` over the descriptor `d` stands for the unbuffered state `u`. -/
def Sim (f : FILE) (d : Descriptor) (u : Unbuffered) : Prop := ∃ q, SimWith f d u q

/-- The flags a call has set are those of the reads `new` it made. -/
structure FlagsOk (f : FILE) (d : Descriptor) (f' : FILE) (d' : Descriptor) : Prop where
  log : ∃ new, d'.reads = d.reads ++ new ∧ (f'.eof = true ↔ f.eof = true ∨ (0 : ℤ) ∈ new) ∧
    (f'.err = true ↔ f.err = true ∨ ∃ r ∈ new, r < 0)

variable {f f' : FILE} {d d' : Descriptor} {u : Unbuffered} {q : List UInt8}

theorem FlagsOk.refl (heof : f'.eof = f.eof) (herr : f'.err = f.err) (hd : d'.reads = d.reads) : FlagsOk f d f' d' :=
  ⟨[], by simp [hd], by simp [heof], by simp [herr]⟩

theorem FlagsOk.trans {f'' : FILE} {d'' : Descriptor} (h : FlagsOk f d f' d')
    (h' : FlagsOk f' d' f'' d'') : FlagsOk f d f'' d'' := by
  obtain ⟨new, hlog, heof, herr⟩ := h.log
  obtain ⟨new', hlog', heof', herr'⟩ := h'.log
  refine ⟨new ++ new', by rw [hlog', hlog, append_assoc], ?_, ?_⟩
  · rw [heof', heof, mem_append, or_assoc]
  · rw [herr', herr, or_assoc]
    simp [or_and_right, exists_or]

/-- Only the flags of the stream before the call matter. -/
theorem FlagsOk.of_flags {g : FILE} (h : FlagsOk g d f' d')
    (heof : g.eof = f.eof) (herr : g.err = f.err) : FlagsOk f d f' d' :=
  FlagsOk.trans (.refl heof herr rfl) h

/-- Where nothing is unread, nothing is pushed back and nothing was delivered ahead of time. -/
theorem SimWith.empty (h : SimWith f d u q) (hpos : f.rpos = f.rend) : u.pushback = [] ∧ q = [] := by
  rcases h.unread with hn | hb
  · exact ⟨hn.pushback_eq, hn.ahead_eq⟩
  · have := hb.load_eq
    rw [hpos, Nat.sub_self] at this
    exact List.append_eq_nil_iff.mp this.symm

/-- The stream with its read pointers at the end of the buffer, as `__toread` leaves it. -/
def FILE.rewound (f : FILE) : FILE :=
  { f with
    wpos := 0, wbase := 0, wend := 0, rpos := f.buf + f.bufSize, rend := f.buf + f.bufSize }

theorem toread_eq (hrd : f.noRd = false) (hwr : f.wpos = f.wbase) :
    toread f d = (f.eof, f.rewound, d) := by
  simp [toread, hwr, hrd, FILE.rewound]

/-- `__toread` on a stream with nothing unread changes nothing that matters. -/
theorem SimWith.rewound (h : SimWith f d u q) (hpos : f.rpos = f.rend) : SimWith f.rewound d u [] := by
  obtain ⟨hp, hq⟩ := h.empty hpos
  refine ⟨h.rd, rfl, h.buf_gt, h.eof_eq, h.err_eq, Or.inr ⟨?_, le_rfl, le_rfl, ?_, ?_⟩,
    by simpa [hq] using h.input_eq, fun _ => rfl⟩
  · simp only [FILE.rewound]
    omega
  · simp [FILE.rewound, hp]
  · simp only [FILE.rewound]
    omega

/-- What `__stdio_read` of `len` bytes does on a rewound stream: it delivers at least one byte, in
which case less than `len` leaves nothing unread; or it finds the end of the file or fails. -/
inductive FillEnd (f : FILE) (d : Descriptor) (u : Unbuffered) (len : ℕ) :
    ℕ × List UInt8 × FILE × Descriptor → Prop where
  | bytes {f' : FILE} {d' : Descriptor} (bs : List UInt8) (items : List InItem) (hne : bs ≠ [])
      (hle : bs.length ≤ len) (hin : u.input = bs.map .byte ++ items)
      (hsim : Sim f' d' { u with input := items }) (hshort : bs.length < len → f'.rpos = f'.rend)
      (hflags : FlagsOk f d f' d') : FillEnd f d u len (bs.length, bs, f', d')
  | none {f' : FILE} {d' : Descriptor} (hnone : u.next.1 = none) (hsim : Sim f' d' u.next.2)
      (hflags : FlagsOk f d f' d') : FillEnd f d u len (0, [], f', d')

/-- **`__stdio_read`** on a rewound stream whose end of file has not been seen. -/
theorem stdioRead_spec (h : SimWith f d u [])
    (hpos : f.rpos = f.rend) (heof : f.eof = false) {len : ℕ} (hlen : 0 < len) :
    FillEnd f d u len (stdioRead f len d) := by
  have hp := (h.empty hpos).1
  have hueof : u.eof = false := h.eof_eq.trans heof
  have hin : u.input = d.input := by simpa using h.input_eq
  simp only [stdioRead]
  generalize hdirect : len - (if f.bufSize ≠ 0 then 1 else 0) = direct
  have hdlen : direct ≤ len ∧ (f.bufSize ≠ 0 → direct + 1 = len) ∧ (f.bufSize = 0 → direct = len) := by
    split at hdirect <;> omega
  generalize hroom : (if direct ≠ 0 then direct + f.bufSize else f.bufSize) = room
  have hroom' : 0 < room ∧ room ≤ direct + f.bufSize := by
    split at hroom <;> omega
  have hread := read_spec d hroom'.1
  generalize d.read room = r at hread ⊢
  -- the streams below differ from `f` in pointers into the buffer, the buffer and the flags
  cases hread with
  | @eof d' hd hlog =>
    have hnext : u.next = (none, { u with input := d'.input, eof := true }) := by
      rcases hd with ⟨hd, hd'⟩ | hd
      · simp [Unbuffered.next, hp, hueof, hin, hd, hd']
      · simp [Unbuffered.next, hp, hueof, hin, hd]
    refine .none (by rw [hnext]) ?_ ⟨[0], hlog, by simp, by simp⟩
    rw [hnext]
    exact ⟨[], h.rd, h.wr, h.buf_gt, rfl, h.err_eq,
      h.unread.imp (fun x => ⟨x.1, x.2, x.3, x.4⟩) (fun x => ⟨x.1, x.2, x.3, x.4, x.5⟩),
      by simp, fun _ => rfl⟩
  | @fail d' hd hlog =>
    have hnext : u.next = (none, { u with input := d'.input, err := true }) := by
      simp [Unbuffered.next, hp, hueof, hin, hd]
    refine .none (by rw [hnext]) ?_ ⟨[-1], hlog, by simp, by simp⟩
    rw [hnext]
    exact ⟨[], h.rd, h.wr, h.buf_gt, h.eof_eq, rfl,
      h.unread.imp (fun x => ⟨x.1, x.2, x.3, x.4⟩) (fun x => ⟨x.1, x.2, x.3, x.4, x.5⟩),
      by simp, fun _ => rfl⟩
  | @bytes d' bs hne hle hd hlog =>
    have hbs : 0 < bs.length := List.length_pos_iff.mpr hne
    have hcnt : ¬(bs.length : ℤ) ≤ 0 := by omega
    simp only [hcnt, Int.toNat_natCast]
    have hflags : ∀ f' : FILE, f'.eof = f.eof → f'.err = f.err → FlagsOk f d f' d' := by
      intro f' h1 h2
      refine ⟨[(bs.length : ℤ)], hlog, ?_, ?_⟩
      · have hzero : (0 : ℤ) ≠ bs.length := by omega
        simp [h1, hzero]
      · simp [h2]
    by_cases hfit : bs.length ≤ direct
    · rw [if_pos hfit]
      exact .bytes bs d'.input hne (by omega) (by rw [hin, hd])
        ⟨[], h.rd, h.wr, h.buf_gt, h.eof_eq, h.err_eq, h.unread, by simp, fun _ => rfl⟩
        (fun _ => hpos) (hflags f rfl rfl)
    · rw [if_neg hfit]
      have hsize : f.bufSize ≠ 0 := by
        intro h0
        omega
      rw [if_pos hsize]
      -- the caller gets `direct` bytes from the read and one from the buffer
      obtain ⟨b, q, hq⟩ := exists_cons_of_ne_nil (mt List.drop_eq_nil_iff.mp hfit)
      have hqlen : q.length + 1 = bs.length - direct := by
        have := congrArg List.length hq
        simpa using this.symm
      have hsplit : bs = bs.take direct ++ [b] ++ q := by
        rw [append_assoc, singleton_append, ← hq, take_append_drop]
      have hbyte : store f.mem f.buf (bs.drop direct) f.buf = b := by
        have hpos : 0 < (bs.drop direct).length := by simp [hq]
        have hget : store f.mem f.buf (bs.drop direct) (f.buf + 0) = (bs.drop direct)[0] :=
          store_add hpos
        simpa [hq] using hget
      have hdirlen : (bs.take direct ++ [b]).length = len := by
        simp only [length_append, length_take, length_singleton]
        omega
      have hrest : load (store f.mem f.buf (bs.drop direct)) (f.buf + 1)
          (f.buf + (bs.length - direct) - (f.buf + 1)) = q := by
        have hall := load_store_same f.mem f.buf (bs.drop direct)
        rw [hq, length_cons, load_succ] at hall
        have hn : f.buf + (bs.length - direct) - (f.buf + 1) = q.length := by omega
        rw [hn, hq]
        exact (List.cons.inj hall).2
      simp only [hbyte]
      have hend : FillEnd f d u len ((bs.take direct ++ [b]).length, bs.take direct ++ [b],
          { f with
            mem := store f.mem f.buf (bs.drop direct), rpos := f.buf + 1,
            rend := f.buf + (bs.length - direct) }, d') :=
        .bytes (bs.take direct ++ [b]) (q.map .byte ++ d'.input) (by simp) (by omega)
        (by
          rw [hin, hd]
          conv_lhs => rw [hsplit]
          simp)
        ⟨q, h.rd, h.wr, h.buf_gt, h.eof_eq, h.err_eq,
          Or.inr ⟨by simp only; omega, by simp only; omega, by simp only; omega,
            by simpa [hp] using hrest, by simp only; omega⟩,
          rfl, fun he => absurd (heof.symm.trans he) (by decide)⟩
        (fun hlt => absurd hlt (by omega)) (hflags _ rfl rfl)
      rwa [hdirlen] at hend

/-! ## Calls -/

/-- The first unread byte of the buffer is the next byte of the unbuffered model. -/
theorem next_unread (h : Sim f d u) (hpos : f.rpos ≠ f.rend) :
    ∃ u', u.next = (some (f.mem f.rpos), u') ∧ Sim { f with rpos := f.rpos + 1 } d u' := by
  obtain ⟨q, h⟩ := h
  rcases h.unread with hn | hb
  · exact absurd (hn.rpos_eq.trans hn.rend_eq.symm) hpos
  · have hlt : f.rpos < f.rend := lt_of_le_of_ne hb.mid hpos
    have hlow : f.buf ≤ f.rpos + 1 + UNGET := hb.low.trans (by omega)
    have hload := hb.load_eq
    have hsucc : f.rend - f.rpos = (f.rend - (f.rpos + 1)) + 1 := by omega
    rw [hsucc, load_succ] at hload
    cases hp : u.pushback with
    | cons b p =>
      -- a pushed-back byte
      rw [hp] at hload
      obtain ⟨hbyte, hrest⟩ := List.cons.inj hload
      refine ⟨{ u with pushback := p }, by simp [Unbuffered.next, hp, hbyte], q, h.rd, h.wr, h.buf_gt,
        h.eof_eq, h.err_eq, Or.inr ⟨?_, hlt, hb.high, hrest, ?_⟩, h.input_eq, h.ended⟩
      · exact hlow
      · have := hb.room
        simp only [hp, length_cons] at this ⊢
        omega
    | nil =>
      -- a byte delivered ahead of time; the end of the file has not been seen then
      rw [hp] at hload
      have hq : q = f.mem f.rpos :: load f.mem (f.rpos + 1) (f.rend - (f.rpos + 1)) := hload.symm
      have heof : u.eof = false := by
        rw [h.eof_eq]
        refine Bool.eq_false_iff.mpr fun he => ?_
        rw [h.ended he] at hq
        cases hq
      have hin := h.input_eq
      rw [hq] at hin
      refine ⟨{ u with
          input := (load f.mem (f.rpos + 1) (f.rend - (f.rpos + 1))).map .byte ++ d.input },
        by simp [Unbuffered.next, hp, heof, hin], _, h.rd, h.wr, h.buf_gt,
        h.eof_eq, h.err_eq, Or.inr ⟨?_, hlt, hb.high, by rw [hp]; rfl, ?_⟩, rfl, fun he => ?_⟩
      · exact hlow
      · exact hb.room.trans (by simp [hp])
      · exact absurd (heof.symm.trans (h.eof_eq.trans he)) (by decide)

theorem take_unread (k m : ℕ) :
    ∀ (f : FILE) (u : Unbuffered), Sim f d u → k ≤ f.rend - f.rpos →
      ∃ u', Sim { f with rpos := f.rpos + k } d u' ∧
        u.take (k + m) = (load f.mem f.rpos k ++ (u'.take m).1, (u'.take m).2) := by
  induction k with
  | zero =>
    intro f u h _
    exact ⟨u, h, by simp⟩
  | succ k ih =>
    intro f u h hk
    obtain ⟨u1, hnext, hsim⟩ := next_unread h (by omega)
    obtain ⟨u', hsim', htake⟩ := ih _ u1 hsim (by simp only; omega)
    refine ⟨u', ?_, ?_⟩
    · have hadd : f.rpos + (k + 1) = f.rpos + 1 + k := by omega
      rw [hadd]
      exact hsim'
    · have hadd : k + 1 + m = (k + m) + 1 := by omega
      rw [hadd, load_succ]
      simp only [Unbuffered.take, hnext, htake, cons_append]

theorem SimWith.next_of_eof
    (h : SimWith f d u q) (hpos : f.rpos = f.rend) (heof : f.eof = true) : u.next = (none, u) := by
  simp [Unbuffered.next, (h.empty hpos).1, h.eof_eq, heof]

/-- **`getc`** gives the next byte of the unbuffered model. -/
theorem getc_spec (h : Sim f d u) :
    (getc f d).1 = ofByte u.next.1 ∧ Sim (getc f d).2.1 (getc f d).2.2 u.next.2 ∧
      FlagsOk f d (getc f d).2.1 (getc f d).2.2 := by
  unfold getc
  split_ifs with hpos
  · obtain ⟨u', hnext, hsim⟩ := next_unread h hpos
    rw [hnext]
    exact ⟨rfl, hsim, .refl rfl rfl rfl⟩
  · have heq : f.rpos = f.rend := not_not.mp hpos
    obtain ⟨q, h⟩ := h
    have hrew := h.rewound heq
    simp only [uflow, toread_eq h.rd h.wr]
    cases heof : f.eof with
    | true =>
      rw [h.next_of_eof heq heof]
      exact ⟨rfl, ⟨[], hrew⟩, .refl rfl rfl rfl⟩
    | false =>
      have hfill := stdioRead_spec hrew rfl heof Nat.one_pos
      have hp := (h.empty heq).1
      have hueof : u.eof = false := h.eof_eq.trans heof
      generalize stdioRead f.rewound 1 d = r at hfill ⊢
      cases hfill with
      | bytes bs items hne hle hin hsim _ hflags =>
        obtain ⟨b, rfl⟩ := List.length_eq_one_iff.mp (hle.antisymm (List.length_pos_iff.mpr hne))
        have hnext : u.next = (some b, { u with input := items }) := by
          simp [Unbuffered.next, hp, hueof, hin]
        rw [hnext]
        exact ⟨rfl, hsim, hflags.of_flags rfl rfl⟩
      | none hnone hsim hflags =>
        rw [hnone]
        exact ⟨rfl, hsim, hflags.of_flags rfl rfl⟩

/-- The loop of `fread`, begun with nothing unread, reads what the unbuffered model takes. -/
theorem freadLoop_spec (l : ℕ) :
    ∀ (f : FILE) (d : Descriptor) (u : Unbuffered), Sim f d u → (l = 0 ∨ f.rpos = f.rend) →
      (freadLoop f d l).2.1 = (u.take l).1 ∧ (freadLoop f d l).1 + (u.take l).1.length = l ∧
        Sim (freadLoop f d l).2.2.1 (freadLoop f d l).2.2.2 (u.take l).2 ∧
        FlagsOk f d (freadLoop f d l).2.2.1 (freadLoop f d l).2.2.2 := by
  induction l using Nat.strong_induction_on with
  | _ l ih =>
    intro f d u h hl
    rw [freadLoop]
    by_cases hzero : l = 0
    · subst hzero
      exact ⟨rfl, rfl, h, .refl rfl rfl rfl⟩
    · have heq := hl.resolve_left hzero
      obtain ⟨n, rfl⟩ := Nat.exists_eq_succ_of_ne_zero hzero
      obtain ⟨q, h⟩ := h
      have hrew := h.rewound heq
      simp only [toread_eq h.rd h.wr]
      rw [dif_neg hzero]
      cases heof : f.eof with
      | true =>
        have htake : u.take (n + 1) = ([], u) := by simp [Unbuffered.take, h.next_of_eof heq heof]
        rw [htake]
        exact ⟨rfl, rfl, ⟨[], hrew⟩, .refl rfl rfl rfl⟩
      | false =>
        simp only [Bool.false_eq_true, if_false]
        have hfill := stdioRead_spec hrew rfl heof (Nat.succ_pos n)
        have hp := (h.empty heq).1
        have hueof : u.eof = false := h.eof_eq.trans heof
        generalize stdioRead f.rewound n.succ d = r at hfill ⊢
        cases hfill with
        | @bytes f' d' bs items hne hle hin hsim hshort hflags =>
          have hbs : 0 < bs.length := List.length_pos_iff.mpr hne
          rw [dif_neg (by simp only; omega)]
          obtain ⟨ih1, ih2, ih3, ih4⟩ := ih (n.succ - bs.length) (by omega) f' d' _ hsim (by omega)
          -- the bytes just read come first in what the unbuffered model takes
          have htake := Unbuffered.take_bytes bs (n.succ - bs.length) items u.err
          have hu : u = ⟨[], bs.map .byte ++ items, false, u.err⟩ := by
            rw [← hin, ← hueof, ← hp]
          have hu' : ({ u with input := items } : Unbuffered) = ⟨[], items, false, u.err⟩ := by
            rw [← hueof, ← hp]
          rw [Nat.add_sub_cancel' hle, ← hu, ← hu'] at htake
          rw [htake]
          refine ⟨by simp only [ih1], ?_, ih3, (hflags.trans ih4).of_flags rfl rfl⟩
          simp only [length_append]
          omega
        | none hnone hsim hflags =>
          have htake : u.take (n + 1) = ([], u.next.2) := by
            have hpair : u.next = (none, u.next.2) := Prod.ext hnone rfl
            rw [Unbuffered.take, hpair]
          rw [htake]
          exact ⟨rfl, rfl, hsim, hflags.of_flags rfl rfl⟩

/-- **`fread`** takes its bytes from the unbuffered model. -/
theorem fread_spec (a : Arch) (h : Sim f d u) (size nmemb : ℕ) :
    (fread a size nmemb f d).2.1 = (u.take (a.wrap (size * nmemb))).1 ∧
      (fread a size nmemb f d).1 =
        (if (u.take (a.wrap (size * nmemb))).1.length = a.wrap (size * nmemb) then
          (if size = 0 then 0 else nmemb)
        else (u.take (a.wrap (size * nmemb))).1.length / size) ∧
      Sim (fread a size nmemb f d).2.2.1 (fread a size nmemb f d).2.2.2
        (u.take (a.wrap (size * nmemb))).2 ∧
      FlagsOk f d (fread a size nmemb f d).2.2.1 (fread a size nmemb f d).2.2.2 := by
  simp only [fread]
  generalize a.wrap (size * nmemb) = len
  generalize hk : (if f.rpos ≠ f.rend then min (f.rend - f.rpos) len else 0) = k
  have hkle : k ≤ f.rend - f.rpos ∧ k ≤ len := by
    split at hk <;> omega
  obtain ⟨u', hsim, htake⟩ := take_unread k (len - k) f u h hkle.1
  rw [Nat.add_sub_cancel' hkle.2] at htake
  have hempty : len - k = 0 ∨ f.rpos + k = f.rend := by
    have hmid : f.rpos ≤ f.rend := by
      obtain ⟨q, h⟩ := h
      rcases h.unread with hn | hb
      · rw [hn.rpos_eq, hn.rend_eq]
      · exact hb.mid
    split at hk <;> omega
  obtain ⟨h1, h2, h3, h4⟩ := freadLoop_spec (len - k) _ d u' hsim hempty
  rw [htake]
  refine ⟨by simp only [h1], ?_, h3, h4.of_flags rfl rfl⟩
  simp only [length_append, length_load]
  -- the count of the bytes left over decides which of the two values is returned
  generalize (freadLoop { f with rpos := f.rpos + k } d (len - k)).1 = l at h2 ⊢
  have hcount : len - l = k + (u'.take (len - k)).1.length := by omega
  have hall : k + (u'.take (len - k)).1.length = len ↔ l = 0 := by omega
  simp only [hcount, hall, ne_eq, ite_not]

/-- The byte pushed back stands before the unread bytes. -/
theorem load_store_pred (mem : ℕ → UInt8) {pos stop : ℕ} (b : UInt8) (hpos : 0 < pos) (hle : pos ≤ stop) :
    load (store mem (pos - 1) [b]) (pos - 1) (stop - (pos - 1)) = b :: load mem pos (stop - pos) := by
  have hlen : stop - (pos - 1) = 1 + (stop - pos) := by omega
  have hsame : load (store mem (pos - 1) [b]) (pos - 1) 1 = [b] := load_store_same mem (pos - 1) [b]
  have hdisj : load (store mem (pos - 1) [b]) pos (stop - pos) = load mem pos (stop - pos) :=
    load_store_of_disjoint (Or.inr (by simp only [length_singleton]; omega))
  have hnext : pos - 1 + 1 = pos := by omega
  rw [hlen, load_add, hsame, hnext, hdisj]
  rfl

theorem push_sim (h : SimWith f d u q) (hb : InBuffer f u.pushback q) (hlt : f.buf - UNGET < f.rpos) (b : UInt8) :
    Sim { f with mem := store f.mem (f.rpos - 1) [b], rpos := f.rpos - 1, eof := false } d
      { u with pushback := b :: u.pushback, eof := false } := by
  have hpos : 0 < f.rpos := by omega
  refine ⟨q, h.rd, h.wr, h.buf_gt, rfl, h.err_eq, Or.inr ⟨?_, ?_, hb.high, ?_, ?_⟩, h.input_eq, by simp⟩
  · simp only
    omega
  · exact (Nat.sub_le _ _).trans hb.mid
  · rw [load_store_pred f.mem b hpos hb.mid, hb.load_eq]
    rfl
  · have := hb.room
    simp only [length_cons]
    omega

/-- **`ungetc`** pushes a byte back, or refuses it when `UNGET` bytes are pushed back already. -/
theorem ungetc_spec (a : Arch) (h : Sim f d u) (c : ℤ) :
    ∃ u', Unbuffered.Step a u (.ungetc c) ⟨(ungetc c f d).1, []⟩ u' ∧
      Sim (ungetc c f d).2.1 (ungetc c f d).2.2 u' ∧
      (ungetc c f d).2.2 = d ∧ (ungetc c f d).2.1.err = f.err ∧
      ((ungetc c f d).2.1.eof = f.eof ∨ (ungetc c f d).2.1.eof = false) := by
  unfold ungetc
  by_cases hc : c = EOF
  · subst hc
    exact ⟨u, .ungetcEOF, h, rfl, rfl, Or.inl rfl⟩
  rw [if_neg hc]
  obtain ⟨q, h⟩ := h
  -- a stream that was not read yet is first given its empty buffer
  have hready : ∃ g : FILE, (if f.rpos = 0 then (toread f d).2 else (f, d)) = (g, d) ∧
      (∃ q, SimWith g d u q ∧ InBuffer g u.pushback q) ∧ g.eof = f.eof ∧ g.err = f.err := by
    rcases h.unread with hn | hb
    · have hrew := h.rewound (hn.rpos_eq.trans hn.rend_eq.symm)
      refine ⟨f.rewound, ?_, ⟨[], hrew, ?_⟩, rfl, rfl⟩
      · rw [if_pos hn.rpos_eq, toread_eq h.rd h.wr]
      · rcases hrew.unread with hn' | hb'
        · have h0 : f.buf + f.bufSize = 0 := hn'.rpos_eq
          have := h.buf_gt
          omega
        · exact hb'
    · have hne : f.rpos ≠ 0 := by
        have := hb.low
        have := h.buf_gt
        omega
      exact ⟨f, if_neg hne, ⟨q, h, hb⟩, rfl, rfl⟩
  obtain ⟨g, hg, ⟨q', hsim, hb⟩, heof, herr⟩ := hready
  rw [hg]
  have hbuf := hsim.buf_gt
  by_cases hfull : g.rpos = 0 ∨ g.rpos ≤ g.buf - UNGET
  · simp only [if_pos hfull]
    have hlen : UNGET ≤ u.pushback.length := by
      have := hb.room
      omega
    exact ⟨u, .refused hc hlen, ⟨q', hsim⟩, trivial, herr, Or.inl heof⟩
  · simp only [if_neg hfull]
    exact ⟨_, .ungetc hc, push_sim hsim hb (by omega) (uchar c), trivial, herr, Or.inr trivial⟩

/-! ## Runs -/

/-- A call that has returned: its reply, and the state it left. -/
structure InEvent where
  call : InCall
  reply : InReply
  file : FILE
  fd : Descriptor

/-- One call. -/
def inStep (a : Arch) (f : FILE) (d : Descriptor) : InCall → InEvent
  | .getc =>
    let r := getc f d
    ⟨.getc, ⟨r.1, []⟩, r.2.1, r.2.2⟩
  | .fread size nmemb =>
    let r := fread a size nmemb f d
    ⟨.fread size nmemb, ⟨r.1, r.2.1⟩, r.2.2.1, r.2.2.2⟩
  | .ungetc c =>
    let r := ungetc c f d
    ⟨.ungetc c, ⟨r.1, []⟩, r.2.1, r.2.2⟩

/-- Calls made one after another. -/
def inRun (a : Arch) : FILE → Descriptor → List InCall → List InEvent
  | _, _, [] => []
  | f, d, c :: calls => inStep a f d c :: inRun a (inStep a f d c).file (inStep a f d c).fd calls

/-- A flag that was clear before a call is set after it exactly when one of the reads the call made
returned 0, or failed. -/
structure FlagsSet (f : FILE) (d : Descriptor) (ev : InEvent) : Prop where
  log : ∃ new, ev.fd.reads = d.reads ++ new ∧
    (f.eof = false → (ev.file.eof = true ↔ (0 : ℤ) ∈ new)) ∧
    (f.err = false → (ev.file.err = true ↔ ∃ r ∈ new, r < 0))

/-- The events of a run are those of the unbuffered model, flags included. -/
inductive Refines (a : Arch) : FILE → Descriptor → Unbuffered → List InEvent → Prop where
  | nil {f : FILE} {d : Descriptor} {u : Unbuffered} : Refines a f d u []
  | cons {f : FILE} {d : Descriptor} {u u' : Unbuffered} {ev : InEvent} {events : List InEvent}
      (hstep : u.Step a ev.call ev.reply u') (heof : ev.file.eof = u'.eof)
      (herr : ev.file.err = u'.err) (hflags : FlagsSet f d ev)
      (hrest : Refines a ev.file ev.fd u' events) : Refines a f d u (ev :: events)

theorem FlagsOk.flagsSet {ev : InEvent} (h : FlagsOk f d ev.file ev.fd) : FlagsSet f d ev := by
  obtain ⟨new, hlog, heof, herr⟩ := h.log
  refine ⟨new, hlog, fun hclear => ?_, fun hclear => ?_⟩
  · rw [heof, hclear]
    simp
  · rw [herr, hclear]
    simp

/-- **One call** is a step of the unbuffered model. -/
theorem inStep_spec (a : Arch) (h : Sim f d u) (c : InCall) :
    ∃ u', u.Step a (inStep a f d c).call (inStep a f d c).reply u' ∧
      Sim (inStep a f d c).file (inStep a f d c).fd u' ∧ FlagsSet f d (inStep a f d c) := by
  cases c with
  | getc =>
    obtain ⟨hret, hsim, hflags⟩ := getc_spec h
    refine ⟨u.next.2, ?_, hsim, FlagsOk.flagsSet hflags⟩
    simp only [inStep, hret]
    exact .getc
  | fread size nmemb =>
    obtain ⟨hbytes, hret, hsim, hflags⟩ := fread_spec a h size nmemb
    refine ⟨_, ?_, hsim, FlagsOk.flagsSet hflags⟩
    simp only [inStep, hret, hbytes]
    exact .fread size nmemb
  | ungetc c =>
    obtain ⟨u', hstep, hsim, hd, herr, heof⟩ := ungetc_spec a h c
    refine ⟨u', hstep, hsim, ⟨[], ?_, fun hclear => ?_, fun hclear => ?_⟩⟩
    · simp only [inStep, hd, append_nil]
    -- `ungetc` reads nothing, and can only clear the end-of-file flag
    · have hclear' : (ungetc c f d).2.1.eof = false := heof.elim (·.trans hclear) id
      simp [inStep, hclear']
    · simp [inStep, herr, hclear]

/-- **Whole runs**, from any stream that stands for an unbuffered state. -/
theorem inRun_refines (a : Arch) (calls : List InCall) :
    ∀ (f : FILE) (d : Descriptor) (u : Unbuffered), Sim f d u →
      Refines a f d u (inRun a f d calls) := by
  induction calls with
  | nil =>
    intro f d u _
    exact .nil
  | cons c calls ih =>
    intro f d u h
    obtain ⟨u', hstep, hsim, hflags⟩ := inStep_spec a h c
    obtain ⟨q, hq⟩ := hsim
    exact .cons hstep hq.eof_eq.symm hq.err_eq.symm hflags (ih _ _ u' ⟨q, hq⟩)

/-- **Buffered input is unbuffered input.** On a stream just opened for reading, with a buffer of any
size, every sequence of `getc`, `fread` and `ungetc` replies as the unbuffered model does: bytes
pushed back come first, the last one foremost, and then what the descriptor delivers, in order. The
end-of-file and error flags are those of the model, and a call sets one exactly when a read of the
descriptor returned 0 or failed. -/
theorem input_refines_unbuffered (a : Arch) (noWr : Bool) (buf bufSize : ℕ) (lbf : ℤ)
    (mem : ℕ → UInt8) (hbuf : UNGET < buf) (d : Descriptor) (calls : List InCall) :
    Refines a (FILE.opened false noWr buf bufSize lbf mem) d ⟨[], d.input, false, false⟩
      (inRun a (FILE.opened false noWr buf bufSize lbf mem) d calls) := by
  refine inRun_refines a calls _ d _ ⟨[], rfl, rfl, hbuf, rfl, rfl, Or.inl ?_, rfl, fun _ => rfl⟩
  exact ⟨rfl, rfl, rfl, rfl⟩

/-- A stream whose buffer lies behind its `FILE`, with the room for `UNGET` bytes before it. -/
theorem input_refines_unbuffered_pushback :
    Refines .x86_64 (FILE.opened false true 240 1024 (-1) fun _ => 0)
      ⟨[], [], [.byte 65, .byte 66], [], [], []⟩ ⟨[], [.byte 65, .byte 66], false, false⟩
      (inRun .x86_64 (FILE.opened false true 240 1024 (-1) fun _ => 0)
        ⟨[], [], [.byte 65, .byte 66], [], [], []⟩ [.getc, .ungetc 67, .fread 1 3]) :=
  input_refines_unbuffered .x86_64 true 240 1024 (-1) (fun _ => 0) (by decide)
    ⟨[], [], [.byte 65, .byte 66], [], [], []⟩ [.getc, .ungetc 67, .fread 1 3]

end Leblibc.Stdio

import Leblibc.Base.Machine

/-!
# Symbol lookup in the dynamic linker

A model of `sysv_hash`, `gnu_hash`, `sysv_lookup`, `gnu_lookup`, `gnu_lookup_filtered` and `find_sym2` in
`ldso/dynlink.c`. The hash tables are arrays of words of 32 bits, as they are in memory; a symbol is its index in the
symbol table. The result `none` of a lookup is a chain without end.

C does not say what a shift of a word of 32 bits by 32 or more gives; the models take it as a parameter.

## Main definitions

* `SymTab`: the symbols, their names, and their versions
* `sysvHash`, `gnuHash`: the hash functions
* `sysvLookup`, `gnuLookup`, `gnuLookupFiltered`: the lookups in one object
* `Dso`, `findSym2`: the search in a list of objects
-/

namespace Leblibc.Ldso

/-! ## Symbols -/

/-- A symbol table: the string at `strings+syms[i].st_name`, the fields of `syms[i]`, and `versym`. -/
structure SymTab where
  name : ℕ → List UInt8
  shndx : ℕ → ℕ
  value : ℕ → ℕ
  info : ℕ → ℕ
  versym : Option (ℕ → ℤ)

/-- `!dso->versym || dso->versym[i] >= 0`. -/
def SymTab.visible (t : SymTab) (i : ℕ) : Bool := (t.versym.map fun v => decide (v i ≥ 0)).getD true

/-! ## Hash functions -/

/-- A round of `sysv_hash`. -/
def sysvStep (h : BitVec 32) (c : UInt8) : BitVec 32 :=
  let h := 16#32 * h + BitVec.ofNat 32 c.toNat
  h ^^^ (h >>> 24 &&& 0xf0#32)

/-- `sysv_hash`. -/
def sysvHash (s : List UInt8) : BitVec 32 := s.foldl sysvStep 0#32 &&& 0xfffffff#32

/-- `gnu_hash`. -/
def gnuHash (s : List UInt8) : BitVec 32 :=
  s.foldl (fun h c => h + (h * 32#32 + BitVec.ofNat 32 c.toNat)) 5381#32

/-! ## Lookups -/

/-- More rounds than a chain of symbols whose indices are words of 32 bits can have. -/
def chainMax : ℕ := 2 ^ 32

/-- The loop of `sysv_lookup`. -/
def sysvLoop (t : SymTab) (hashtab : ℕ → BitVec 32) (s : List UInt8) : ℕ → ℕ → Option (Option ℕ)
  | 0, _ => none
  | fuel + 1, i =>
    if i = 0 then some none
    else if t.visible i ∧ s = t.name i then some (some i)
    else sysvLoop t hashtab s fuel (hashtab ((2#32 + hashtab 0).toNat + i)).toNat

/-- `sysv_lookup`. -/
def sysvLookup (t : SymTab) (s : List UInt8) (h : BitVec 32) (hashtab : ℕ → BitVec 32) : Option (Option ℕ) :=
  sysvLoop t hashtab s chainMax (hashtab (2 + (h % hashtab 0).toNat)).toNat

/-- Where the buckets of a GNU hash table are. -/
def buckets (arch : Arch) (hashtab : ℕ → BitVec 32) : ℕ := 4 + (hashtab 2).toNat * (arch.bits / 32)

/-- The loop of `gnu_lookup`, where `k` is the place of `hashval`. -/
def gnuLoop (t : SymTab) (hashtab : ℕ → BitVec 32) (s : List UInt8) (h1 : BitVec 32) : ℕ → ℕ → ℕ → Option (Option ℕ)
  | 0, _, _ => none
  | fuel + 1, i, k =>
    if h1 = hashtab k ||| 1#32 ∧ t.visible i ∧ s = t.name i then some (some i)
    else if hashtab k &&& 1#32 ≠ 0#32 then some none
    else gnuLoop t hashtab s h1 fuel ((i + 1) % 2 ^ 32) (k + 1)

/-- `gnu_lookup`. -/
def gnuLookup (arch : Arch) (h1 : BitVec 32) (hashtab : ℕ → BitVec 32) (t : SymTab) (s : List UInt8) :
    Option (Option ℕ) :=
  let i := hashtab (buckets arch hashtab + (h1 % hashtab 0).toNat)
  if i = 0#32 then some none
  else gnuLoop t hashtab s (h1 ||| 1#32) chainMax i.toNat
    (buckets arch hashtab + (hashtab 0).toNat + (i - hashtab 1).toNat)

/-- The word `k` of the Bloom filter. -/
def bloomWord (hashtab : ℕ → BitVec 32) : Arch → ℕ → ℕ
  | .i386, k => (hashtab (4 + k)).toNat
  | .x86_64, k => (hashtab (4 + 2 * k)).toNat + 2 ^ 32 * (hashtab (4 + 2 * k + 1)).toNat

/-- `h >> n`, which is `wide` where C does not define it. -/
def shr (wide : ℕ → ℕ → ℕ) (h n : BitVec 32) : ℕ := if n.toNat < 32 then (h >>> n.toNat).toNat else wide h.toNat n.toNat

/-- `gnu_lookup_filtered`. -/
def gnuLookupFiltered (arch : Arch) (wide : ℕ → ℕ → ℕ) (h1 : BitVec 32) (hashtab : ℕ → BitVec 32) (t : SymTab)
    (s : List UInt8) (fofs : BitVec 32) (fmask : ℕ) : Option (Option ℕ) :=
  let f := bloomWord hashtab arch (fofs &&& (hashtab 2 - 1#32)).toNat
  if f &&& fmask = 0 then some none
  else if (f >>> (shr wide h1 (hashtab 3) % arch.bits)) &&& 1 = 0 then some none
  else gnuLookup arch h1 hashtab t s

/-! ## Lists of objects -/

/-- The fields of `struct dso` that a search reads. -/
structure Dso where
  syms : SymTab
  hashtab : ℕ → BitVec 32
  ghashtab : Option (ℕ → BitVec 32)

/-- `STT_TLS`. -/
def STT_TLS : ℕ := 6

/-- `OK_TYPES`. -/
def OK_TYPES : ℕ := 2 ^ 0 ||| 2 ^ 1 ||| 2 ^ 2 ||| 2 ^ 5 ||| 2 ^ 6

/-- `OK_BINDS`. -/
def OK_BINDS : ℕ := 2 ^ 1 ||| 2 ^ 2 ||| 2 ^ 10

/-- The tests of `find_sym2` on a symbol that has been found. -/
def acceptable (t : SymTab) (needDef : Bool) (i : ℕ) : Bool :=
  ¬(t.shndx i = 0 ∧ (needDef ∨ t.info i % 16 = STT_TLS)) ∧
    ¬(t.value i = 0 ∧ t.info i % 16 ≠ STT_TLS) ∧
    2 ^ (t.info i % 16) &&& OK_TYPES ≠ 0 ∧ 2 ^ (t.info i / 16) &&& OK_BINDS ≠ 0

/-- The variable `h` after the lookup in an object: the SysV hash is computed when it is needed and not known. -/
def sysvKnown (dso : Dso) (s : List UInt8) (h : BitVec 32) : BitVec 32 :=
  if dso.ghashtab.isNone ∧ h = 0#32 then sysvHash s else h

/-- The lookup in an object, in the GNU table if it has one. -/
def lookupIn (arch : Arch) (wide : ℕ → ℕ → ℕ) (dso : Dso) (s : List UInt8) (h : BitVec 32) : Option (Option ℕ) :=
  match dso.ghashtab with
  | some ght =>
    let gh := gnuHash s
    gnuLookupFiltered arch wide gh ght dso.syms s (gh / BitVec.ofNat 32 arch.bits) (2 ^ (gh.toNat % arch.bits))
  | none => sysvLookup dso.syms s h dso.hashtab

/-- The loop of `find_sym2`: the object, as its place in the list, and the symbol. -/
def findLoop (arch : Arch) (wide : ℕ → ℕ → ℕ) (s : List UInt8) (needDef : Bool) : List Dso → ℕ → BitVec 32 →
    Option (Option (ℕ × ℕ))
  | [], _, _ => some none
  | dso :: ds, k, h =>
    match lookupIn arch wide dso s (sysvKnown dso s h) with
    | none => none
    | some sym =>
      match sym.filter (acceptable dso.syms needDef) with
      | some i => some (some (k, i))
      | none => findLoop arch wide s needDef ds (k + 1) (sysvKnown dso s h)

/-- `find_sym2`, over the list of the object and those that are searched after it. -/
def findSym2 (arch : Arch) (wide : ℕ → ℕ → ℕ) (ds : List Dso) (s : List UInt8) (needDef : Bool) :
    Option (Option (ℕ × ℕ)) := findLoop arch wide s needDef ds 0 0#32

end Leblibc.Ldso

import Leblibc.Lib.Avl
import Leblibc.Search.Tsearch

/-!
# The tree a heap stores

A heap stores a tree when every node stands at its address, with pointers to its children and with
its real height. While a change is carried up to the root the nodes above it still hold the heights
they had before; this is what `StoredCtx` describes: a context stored with the heights it has for a
hole of a given height.

## Main results

* `balance_spec`: `__tsearch_balance` is `rebalance`, and returns the change of the height
* `balanceUp_spec`: the loop up to the root leaves a balanced tree with the same values
-/

namespace Leblibc.Tsearch

open Lib BinaryTree

variable {κ : Type}

/-! ## Writing nodes -/

variable {n : ℕ} {s : Heap κ} {x : Node κ} {p : ℕ} {f : Frame (ℕ × κ)} {C : List (Frame (ℕ × κ))} {s' : Heap κ}
  {t : BinaryTree (ℕ × κ)} {h y z : ℕ}

namespace Heap

@[simp]
theorem write_node_self (s : Heap κ) (n : ℕ) (x : Node κ) : (s.write n x).node n = some x := by
  simp [write]

theorem write_node_of_ne (s : Heap κ) {m : ℕ} (x : Node κ) (h : m ≠ n) :
    (s.write n x).node m = s.node m := by
  simp [write, h]

theorem setH_eq (hn : s.node n = some x) (h : ℤ) :
    s.setH n h = some (s.write n { x with h := h }) := by
  simp [setH, hn]

theorem a_eq (h : s.node n = some x) (dir : Bool) :
    s.a n dir = some (x.a dir) := by
  simp [a, h]

theorem h_eq (hn : s.node n = some x) : s.h n = some x.h := by
  simp [h, hn]

end Heap

/-! ## Stored trees -/

/-- The address of the root of a tree, 0 for the empty tree. -/
def addr : BinaryTree (ℕ × κ) → ℕ
  | nil => 0
  | node x _ _ => x.1

@[simp]
theorem addr_nil : addr (nil : BinaryTree (ℕ × κ)) = 0 := rfl

@[simp]
theorem addr_node (x : ℕ × κ) (l r : BinaryTree (ℕ × κ)) : addr (node x l r) = x.1 := rfl

/-- The child pointers of a node. -/
def kids (l r : ℕ) : Bool → ℕ := fun dir => if dir then r else l

@[simp]
theorem kids_false (l r : ℕ) : kids l r false = l := rfl

@[simp]
theorem kids_true (l r : ℕ) : kids l r true = r := rfl

@[simp]
theorem update_kids_false (l r q : ℕ) : Function.update (kids l r) false q = kids q r := by
  funext dir
  cases dir <;> rfl

@[simp]
theorem update_kids_true (l r q : ℕ) : Function.update (kids l r) true q = kids l q := by
  funext dir
  cases dir <;> rfl

/-- The nodes of a tree stand at their addresses, with pointers to their children and with their real
heights. -/
def Stored (s : Heap κ) : BinaryTree (ℕ × κ) → Prop
  | nil => True
  | node x l r => x.1 ≠ 0 ∧
      s.node x.1 = some ⟨x.2, kids (addr l) (addr r), ((max l.height r.height + 1 : ℕ) : ℤ)⟩ ∧
      Stored s l ∧ Stored s r

/-- The child pointers of a node with `p` on the side `dir` and `q` on the other one. -/
def sides (dir : Bool) (p q : ℕ) : Bool → ℕ := if dir then kids q p else kids p q

variable (dir : Bool)

@[simp]
theorem sides_self (p q : ℕ) : sides dir p q dir = p := by
  cases dir <;> rfl

@[simp]
theorem sides_not (p q : ℕ) : sides dir p q (!dir) = q := by
  cases dir <;> rfl

@[simp]
theorem update_sides_self (p q p' : ℕ) :
    Function.update (sides dir p q) dir p' = sides dir p' q := by
  cases dir <;> simp [sides]

@[simp]
theorem update_sides_not (p q q' : ℕ) :
    Function.update (sides dir p q) (!dir) q' = sides dir p q' := by
  cases dir <;> simp [sides]

/-- The frames of a context stand at their addresses, around a hole that holds `p`, with the heights
they have when the hole is of height `h`. -/
def StoredCtx (s : Heap κ) : List (Frame (ℕ × κ)) → ℕ → ℕ → Prop
  | [], p, _ => s.root = p
  | f :: C, p, h => f.val.1 ≠ 0 ∧
      s.node f.val.1 = some ⟨f.val.2, sides f.dir p (addr f.sib), ((max h f.sib.height + 1 : ℕ) : ℤ)⟩ ∧
      Stored s f.sib ∧ StoredCtx s C f.val.1 (max h f.sib.height + 1)

/-- The addresses of the nodes of a tree. -/
def addrs (t : BinaryTree (ℕ × κ)) : List ℕ := (inorder t).map Prod.fst

/-- The addresses of the nodes of a context. -/
def ctxAddrs (C : List (Frame (ℕ × κ))) : List ℕ := (before C ++ after C).map Prod.fst

@[simp]
theorem addrs_nil : addrs (nil : BinaryTree (ℕ × κ)) = [] := rfl

theorem mem_addrs_node {x : ℕ × κ} {l r : BinaryTree (ℕ × κ)} :
    p ∈ addrs (node x l r) ↔ p ∈ addrs l ∨ p = x.1 ∨ p ∈ addrs r := by
  simp only [addrs, inorder, List.map_append, List.map_cons, List.mem_append, List.mem_cons]

theorem addrs_fill_perm (f : Frame (ℕ × κ)) (t : BinaryTree (ℕ × κ)) :
    (addrs (f.fill t)).Perm (f.val.1 :: (addrs t ++ addrs f.sib)) := by
  refine List.perm_iff_count.mpr fun p => ?_
  cases hf : f.dir <;> simp [addrs, Frame.fill, hf, inorder, List.count_cons] <;> omega

theorem ctxAddrs_cons_perm (f : Frame (ℕ × κ)) (C : List (Frame (ℕ × κ))) :
    (ctxAddrs (f :: C)).Perm (f.val.1 :: (addrs f.sib ++ ctxAddrs C)) := by
  refine List.perm_iff_count.mpr fun p => ?_
  cases hf : f.dir <;> simp [ctxAddrs, addrs, before, after, hf, List.count_cons] <;> omega

theorem mem_ctxAddrs_cons :
    p ∈ ctxAddrs (f :: C) ↔ p = f.val.1 ∨ p ∈ addrs f.sib ∨ p ∈ ctxAddrs C := by
  rw [(ctxAddrs_cons_perm f C).mem_iff, List.mem_cons, List.mem_append]

/-- The part of the heap that a tree does not use does not matter to it. -/
theorem Stored.congr (h : Stored s t) (heq : ∀ p ∈ addrs t, s'.node p = s.node p) : Stored s' t := by
  induction t with
  | nil => trivial
  | node x l r ihl ihr =>
    obtain ⟨hne, hx, hl, hr⟩ := h
    simp only [mem_addrs_node, or_imp, forall_and, forall_eq] at heq
    exact ⟨hne, heq.2.1.trans hx, ihl hl heq.1, ihr hr heq.2.2⟩

theorem StoredCtx.congr (hC : StoredCtx s C p h) (hroot : s'.root = s.root)
    (heq : ∀ q ∈ ctxAddrs C, s'.node q = s.node q) : StoredCtx s' C p h := by
  induction C generalizing p h with
  | nil => exact hroot.trans hC
  | cons f C ih =>
    obtain ⟨hne, hf, hsib, hrest⟩ := hC
    simp only [mem_ctxAddrs_cons, or_imp, forall_and, forall_eq] at heq
    exact ⟨hne, heq.1.trans hf, hsib.congr heq.2.1, ih hrest heq.2.2⟩

theorem Stored.height_eq (h : Stored s t) :
    s.height (addr t) = some (t.height : ℤ) := by
  cases t with
  | nil => rfl
  | node x l r =>
    obtain ⟨hne, hx, -, -⟩ := h
    simp [Heap.height, hne, Heap.h, hx]

/-- **A filled context** is stored when the tree and the context around it are. -/
theorem stored_plug (C : List (Frame (ℕ × κ))) (t : BinaryTree (ℕ × κ)) :
    Stored s (plug C t) ∧ s.root = addr (plug C t) ↔
      Stored s t ∧ StoredCtx s C (addr t) t.height := by
  induction C generalizing t with
  | nil => simp [StoredCtx]
  | cons f C ih =>
    rw [plug, ih]
    cases hf : f.dir <;>
      simp only [Frame.fill, hf, Stored, StoredCtx, height, if_true, if_false,
        Bool.false_eq_true, max_comm f.sib.height] <;> tauto

/-! ## The hole -/

/-- The variable that is the hole of a context. -/
def slot : List (Frame (ℕ × κ)) → Slot
  | [] => .root
  | f :: _ => .child f.val.1 f.dir

/-- Only nodes of `A` change, and none is allocated or freed. -/
structure Keeps (A : List ℕ) (s s' : Heap κ) : Prop where
  node_eq : ∀ n ∉ A, s'.node n = s.node n
  isSome_eq : ∀ n, (s'.node n).isSome = (s.node n).isSome

theorem Keeps.trans {A B : List ℕ} {s'' : Heap κ} (h : Keeps A s s') (h' : Keeps B s' s'')
    (hAB : ∀ n ∈ A, n ∈ B) : Keeps B s s'' :=
  ⟨fun n hn => (h'.node_eq n hn).trans (h.node_eq n fun hA => hn (hAB n hA)),
    fun n => (h'.isSome_eq n).trans (h.isSome_eq n)⟩

/-- The two trees around the hole have nothing in common. -/
def Apart (t : BinaryTree (ℕ × κ)) (C : List (Frame (ℕ × κ))) : Prop :=
  (addrs t ++ ctxAddrs C).Nodup

theorem apart_fill (f : Frame (ℕ × κ)) (C : List (Frame (ℕ × κ))) (t : BinaryTree (ℕ × κ)) :
    Apart (f.fill t) C ↔ Apart t (f :: C) := by
  refine List.Perm.nodup_iff (List.perm_iff_count.mpr fun p => ?_)
  simp only [List.count_append, (addrs_fill_perm f t).count_eq, (ctxAddrs_cons_perm f C).count_eq, List.count_cons]
  omega

theorem apart_plug (C : List (Frame (ℕ × κ))) (t : BinaryTree (ℕ × κ)) :
    Apart t C ↔ (addrs (plug C t)).Nodup := by
  induction C generalizing t with
  | nil => simp [Apart, ctxAddrs, before, after]
  | cons f C ih => rw [← apart_fill, ih, plug]

theorem StoredCtx.get_slot (hC : StoredCtx s C p h) : s.get (slot C) = some p := by
  cases C with
  | nil => exact congrArg some hC
  | cons f C =>
    obtain ⟨-, hf, -, -⟩ := hC
    cases hd : f.dir <;> simp [Heap.get, slot, Heap.a, hf]

theorem StoredCtx.put_slot (hC : StoredCtx s C p h) (hnd : (ctxAddrs C).Nodup) (q : ℕ) :
    ∃ s', s.put (slot C) q = some s' ∧ StoredCtx s' C q h ∧ Keeps (ctxAddrs C) s s' := by
  cases C with
  | nil => exact ⟨{ s with root := q }, rfl, rfl, fun _ _ => rfl, fun _ => rfl⟩
  | cons f C =>
    obtain ⟨hne, hf, hsib, hrest⟩ := hC
    have hnd' := (ctxAddrs_cons_perm f C).nodup_iff.mp hnd
    obtain ⟨hnot, -⟩ := List.nodup_cons.mp hnd'
    have hput : s.put (slot (f :: C)) q =
        some (s.write f.val.1 ⟨f.val.2, sides f.dir q (addr f.sib), ((max h f.sib.height + 1 : ℕ) : ℤ)⟩) := by
      cases hd : f.dir <;> simp [Heap.put, slot, Heap.setA, hf, hd]
    have hother : ∀ n, n ≠ f.val.1 → (s.write f.val.1
        ⟨f.val.2, sides f.dir q (addr f.sib), ((max h f.sib.height + 1 : ℕ) : ℤ)⟩).node n = s.node n :=
      fun n hn => s.write_node_of_ne _ hn
    refine ⟨_, hput, ⟨hne, Heap.write_node_self _ _ _, hsib.congr fun n hn => ?_,
      hrest.congr rfl fun n hn => ?_⟩, fun n hn => ?_, fun n => ?_⟩
    · exact hother n fun heq => hnot (heq ▸ List.mem_append_left _ hn)
    · exact hother n fun heq => hnot (heq ▸ List.mem_append_right _ hn)
    · exact hother n fun heq => hn (mem_ctxAddrs_cons.mpr (Or.inl heq))
    · by_cases hn : n = f.val.1
      · rw [hn, Heap.write_node_self, hf]
        rfl
      · rw [hother n hn]

/-! ## One rebalancing -/

theorem stored_fill (f : Frame (ℕ × κ)) (t : BinaryTree (ℕ × κ)) :
    Stored s (f.fill t) ↔ f.val.1 ≠ 0 ∧ s.node f.val.1 = some ⟨f.val.2,
        sides f.dir (addr t) (addr f.sib), ((max t.height f.sib.height + 1 : ℕ) : ℤ)⟩ ∧
      Stored s f.sib ∧ Stored s t := by
  cases hf : f.dir
  · simp only [Frame.fill, hf, Bool.false_eq_true, if_false, Stored]
    tauto
  · simp only [Frame.fill, hf, if_true, Stored, sides, max_comm f.sib.height]

theorem mem_addrs_fill :
    p ∈ addrs (f.fill t) ↔ p = f.val.1 ∨ p ∈ addrs t ∨ p ∈ addrs f.sib := by
  rw [(addrs_fill_perm f t).mem_iff, List.mem_cons, List.mem_append]

theorem nodup_addrs_fill :
    (addrs (f.fill t)).Nodup ↔ f.val.1 ∉ addrs t ∧ f.val.1 ∉ addrs f.sib ∧ (addrs t).Nodup ∧
      (addrs f.sib).Nodup ∧ ∀ p ∈ addrs t, p ∉ addrs f.sib := by
  rw [(addrs_fill_perm f t).nodup_iff, List.nodup_cons, List.mem_append, not_or, List.nodup_append',
    and_assoc]
  exact Iff.rfl

@[simp]
theorem addr_fill (f : Frame (ℕ × κ)) (t : BinaryTree (ℕ × κ)) : addr (f.fill t) = f.val.1 := by
  unfold Frame.fill
  split <;> rfl

theorem fill_ne_nil (f : Frame (ℕ × κ)) (t : BinaryTree (ℕ × κ)) : f.fill t ≠ nil := by
  unfold Frame.fill
  split <;> simp

/-- Writing to three nodes: the first two may have been written to before. -/
theorem Heap.write_three (s : Heap κ) {x : ℕ} (hxy : x ≠ y) (hxz : x ≠ z) (hyz : y ≠ z) (X X' Y Y' Z Z' Z'' : Node κ) :
    ((((((s.write x X).write y Y).write z Z).write z Z').write x X').write y Y').write z Z'' =
      ((s.write x X').write y Y').write z Z'' := by
  simp only [Heap.write, Heap.mk.injEq, true_and]
  funext n
  grind

theorem rot_double {x : ℕ} {nx ny nz : Node κ} {dir : Bool} {hd : ℤ}
    (hx : s.node x = some nx) (hy : s.node y = some ny) (hz : s.node z = some nz)
    (hxy : nx.a dir = y) (hyz : ny.a (!dir) = z) (hz0 : z ≠ 0) (hne1 : x ≠ y) (hne2 : x ≠ z)
    (hne3 : y ≠ z) (hhd : s.height (ny.a dir) = some hd) (hlt : hd < nz.h) (p : Slot) :
    rot s p x dir =
      ((((s.write x ⟨nx.key, Function.update nx.a dir (nz.a (!dir)), nz.h⟩).write y
            ⟨ny.key, Function.update ny.a (!dir) (nz.a dir), nz.h⟩).write z
          ⟨nz.key, Function.update (Function.update nz.a (!dir) x) dir y, nz.h + 1⟩).put p z).bind
        fun s' => (s'.h z).bind fun h => some (h - nx.h, s') := by
  have hhz : s.height z = some nz.h := by simp [Heap.height, hz0, Heap.h_eq hz]
  -- `write_node_of_ne`: what each node holds while the others are written to
  simp only [rot, hxy, Option.bind_eq_bind, Option.bind_some, hyz, Heap.h_eq hx, hhz, hhd, hlt, if_true, Heap.setA,
    Heap.setH, Heap.a, hx, hy, hz, Heap.write_node_of_ne _ _ hne1, Heap.write_node_of_ne _ _ hne1.symm,
    Heap.write_node_of_ne _ _ hne2, Heap.write_node_of_ne _ _ hne2.symm, Heap.write_node_of_ne _ _ hne3,
    Heap.write_node_of_ne _ _ hne3.symm, Option.map_some, Heap.write_node_self, Heap.write_three s hne1 hne2 hne3]

theorem rot_single {x : ℕ} {nx ny : Node κ} {dir : Bool} {hd hz : ℤ} (hx : s.node x = some nx) (hy : s.node y = some ny)
    (hxy : nx.a dir = y) (hyz : ny.a (!dir) = z) (hne : x ≠ y) (hhz : s.height z = some hz)
    (hhd : s.height (ny.a dir) = some hd) (hle : hz ≤ hd) (p : Slot) :
    rot s p x dir =
      (((s.write x ⟨nx.key, Function.update nx.a dir z, hz + 1⟩).write y
          ⟨ny.key, Function.update ny.a (!dir) x, hz + 2⟩).put p y).bind
        fun s' => (s'.h y).bind fun h => some (h - nx.h, s') := by
  have hcollapse (X X' Y Y') : (((s.write x X).write y Y).write x X').write y Y' = (s.write x X').write y Y' := by
    simp only [Heap.write, Heap.mk.injEq, true_and]
    funext n
    grind
  simp only [rot, Heap.a_eq hx, hxy, Option.bind_eq_bind, Option.bind_some, Heap.a_eq hy, hyz,
    Heap.h_eq hx, hhz, hhd, not_lt.mpr hle, if_false, Heap.setA, Heap.setH, hx, hy, Heap.write_node_of_ne _ _ hne,
    Heap.write_node_of_ne _ _ hne.symm, Option.map_some, Heap.write_node_self, hcollapse]

/-- The outcome of a rebalancing at the hole of `C`: the tree `w` has been replaced by `w'`. -/
structure Replaced (s s' : Heap κ) (C : List (Frame (ℕ × κ))) (w w' : BinaryTree (ℕ × κ)) (h : ℕ) :
    Prop where
  stored : Stored s' w'
  ctx : StoredCtx s' C (addr w') h
  keeps : Keeps (addrs w ++ ctxAddrs C) s s'

/-- The end of a rotation: the new tree stands on the heap, and is now put in the hole. -/
theorem replaced_of_put {s1 : Heap κ} {w w' : BinaryTree (ℕ × κ)}
    (hw' : Stored s1 w') (hC : StoredCtx s C p h) (hap : Apart w C)
    (hroot : s1.root = s.root) (hkeeps : Keeps (addrs w) s s1) (hne : w' ≠ nil)
    (hin : inorder w' = inorder w) (old : ℤ) :
    ∃ s', ((s1.put (slot C) (addr w')).bind
        fun s' => (s'.h (addr w')).bind fun h => some (h - old, s')) =
          some ((w'.height : ℤ) - old, s') ∧ Replaced s s' C w w' h := by
  have haddrs : addrs w' = addrs w := congrArg (List.map Prod.fst) hin
  obtain ⟨hndw, hndC, hdisj⟩ := List.nodup_append'.mp hap
  have hC1 : StoredCtx s1 C p h :=
    hC.congr hroot fun q hq => hkeeps.node_eq q fun hqw => hdisj hqw hq
  obtain ⟨s', hput, hC', hkeeps'⟩ := hC1.put_slot hndC (addr w')
  have hst : Stored s' w' :=
    hw'.congr fun q hq => hkeeps'.node_eq q fun hqC => hdisj (haddrs ▸ hq) hqC
  have hh : s'.h (addr w') = some (w'.height : ℤ) := by
    cases w' with
    | nil => exact absurd rfl hne
    | node x l r => exact Heap.h_eq hst.2.1
  refine ⟨s', ?_, hst, hC', fun n hn => ?_, fun n => ?_⟩
  · rw [hput, Option.bind_some, hh, Option.bind_some]
  · rw [hkeeps'.node_eq n fun hnC => hn (List.mem_append_right _ hnC),
      hkeeps.node_eq n fun hnw => hn (List.mem_append_left _ hnw)]
  · rw [hkeeps'.isSome_eq, hkeeps.isSome_eq]

theorem Keeps.write {A : List ℕ} {s1 : Heap κ} (h : Keeps A s s1) (hn : n ∈ A)
    (hsome : (s.node n).isSome) (x : Node κ) : Keeps A s (s1.write n x) := by
  refine ⟨fun m hm => ?_, fun m => ?_⟩
  · rw [s1.write_node_of_ne x (fun heq : m = n => hm (heq ▸ hn)), h.node_eq m hm]
  · by_cases hmn : m = n
    · rw [hmn, Heap.write_node_self, hsome]
      rfl
    · rw [s1.write_node_of_ne x hmn, h.isSome_eq]

theorem Keeps.refl (A : List ℕ) (s : Heap κ) : Keeps A s s := ⟨fun _ _ => rfl, fun _ => rfl⟩

theorem Stored.write (h : Stored s t) (hn : n ∉ addrs t) (x : Node κ) : Stored (s.write n x) t :=
  h.congr fun _ hp => s.write_node_of_ne x fun heq => hn (heq ▸ hp)

section Rotations

variable {s : Heap κ} {C : List (Frame (ℕ × κ))} {x y z : ℕ × κ} {h : ℕ} {old : ℤ}
  {dir : Bool} {o n n₁ n₂ d : BinaryTree (ℕ × κ)}

theorem stored_single (hx0 : x.1 ≠ 0) (hy0 : y.1 ≠ 0) (ho : Stored s o) (hn : Stored s n)
    (hd : Stored s d) (hnd : (addrs (Frame.fill ⟨dir, x, o⟩ (Frame.fill ⟨dir, y, n⟩ d))).Nodup)
    (hon : o.height ≤ n.height) (hdn : d.height ≤ n.height + 1) :
    Stored ((s.write x.1 ⟨x.2, sides dir (addr n) (addr o), (n.height : ℤ) + 1⟩).write y.1
        ⟨y.2, sides dir (addr d) x.1, (n.height : ℤ) + 2⟩)
      (Frame.fill ⟨dir, y, Frame.fill ⟨dir, x, o⟩ n⟩ d) := by
  simp only [nodup_addrs_fill, mem_addrs_fill, not_or] at hnd
  obtain ⟨⟨hxy, hxd, hxn⟩, hxo, ⟨hyd, hyn, -⟩, -, hdisj⟩ := hnd
  have hyo : y.1 ∉ addrs o := hdisj y.1 (Or.inl rfl)
  refine (stored_fill _ _).mpr ⟨hy0, ?_, (stored_fill _ _).mpr ⟨hx0, ?_, ?_, ?_⟩, ?_⟩
  · rw [Heap.write_node_self, addr_fill, height_fill]
    have hh : max d.height (max n.height o.height + 1) + 1 = n.height + 2 := by omega
    simp only [hh]
    norm_cast
  · rw [Heap.write_node_of_ne _ _ hxy, Heap.write_node_self, max_eq_left hon]
    norm_cast
  · exact (ho.write hxo _).write hyo _
  · exact (hn.write hxn _).write hyn _
  · exact (hd.write hxd _).write hyd _

theorem stored_double (hx0 : x.1 ≠ 0) (hy0 : y.1 ≠ 0) (hz0 : z.1 ≠ 0) (ho : Stored s o)
    (hn1 : Stored s n₁) (hn2 : Stored s n₂) (hd : Stored s d) (hnd : (addrs (Frame.fill ⟨dir, x, o⟩
      (Frame.fill ⟨dir, y, Frame.fill ⟨dir, z, n₁⟩ n₂⟩ d))).Nodup) {hz : ℕ}
    (hx : max n₁.height o.height + 1 = hz) (hy : max d.height n₂.height + 1 = hz) :
    Stored (((s.write x.1 ⟨x.2, sides dir (addr n₁) (addr o), (hz : ℤ)⟩).write y.1
        ⟨y.2, sides dir (addr d) (addr n₂), (hz : ℤ)⟩).write z.1
          ⟨z.2, sides dir y.1 x.1, (hz : ℤ) + 1⟩)
      (Frame.fill ⟨dir, z, Frame.fill ⟨dir, x, o⟩ n₁⟩ (Frame.fill ⟨dir, y, n₂⟩ d)) := by
  simp only [nodup_addrs_fill, mem_addrs_fill, not_or] at hnd
  obtain ⟨⟨hxy, hxd, hxz, hxn2, hxn1⟩, hxo, ⟨hyd, ⟨hyz, hyn2, hyn1⟩, -, ⟨hzn2, hzn1, -⟩, hdn⟩, -,
    hdisj⟩ := hnd
  have hyo : y.1 ∉ addrs o := hdisj y.1 (Or.inl rfl)
  have hzo : z.1 ∉ addrs o := hdisj z.1 (Or.inr (Or.inr (Or.inl rfl)))
  have hzd : z.1 ∉ addrs d := fun hz => (hdn z.1 hz).1 rfl
  refine (stored_fill _ _).mpr ⟨hz0, ?_, (stored_fill _ _).mpr ⟨hx0, ?_, ?_, ?_⟩,
    (stored_fill _ _).mpr ⟨hy0, ?_, ?_, ?_⟩⟩
  · rw [Heap.write_node_self, addr_fill, addr_fill, height_fill, height_fill, hx, hy, max_self]
    norm_cast
  · rw [Heap.write_node_of_ne _ _ hxz, Heap.write_node_of_ne _ _ hxy, Heap.write_node_self, hx]
  · exact ((ho.write hxo _).write hyo _).write hzo _
  · exact ((hn1.write hxn1 _).write hyn1 _).write hzn1 _
  · rw [Heap.write_node_of_ne _ _ hyz, Heap.write_node_self, hy]
  · exact ((hn2.write hxn2 _).write hyn2 _).write hzn2 _
  · exact ((hd.write hxd _).write hyd _).write hzd _

theorem rotate_fill_single (hle : n.height ≤ d.height) :
    rotate dir (Frame.fill ⟨dir, x, o⟩ (Frame.fill ⟨dir, y, n⟩ d)) =
      Frame.fill ⟨dir, y, Frame.fill ⟨dir, x, o⟩ n⟩ d := by
  cases n with
  | nil => cases dir <;> rfl
  | node z n₁ n₂ =>
    have hlt : ¬ d.height < (node z n₁ n₂).height := not_lt.mpr hle
    cases dir <;> exact if_neg hlt

theorem rotate_fill_double (hlt : d.height < (Frame.fill ⟨dir, z, n₁⟩ n₂).height) :
    rotate dir (Frame.fill ⟨dir, x, o⟩ (Frame.fill ⟨dir, y, Frame.fill ⟨dir, z, n₁⟩ n₂⟩ d)) =
      Frame.fill ⟨dir, z, Frame.fill ⟨dir, x, o⟩ n₁⟩ (Frame.fill ⟨dir, y, n₂⟩ d) := by
  cases dir <;> simp only [Frame.fill] at hlt ⊢ <;>
    exact if_pos hlt

/-- **`rot`** rotates a tree whose subtree on the side `dir` is two levels higher than the other
one. -/
theorem rot_spec (hx0 : x.1 ≠ 0) (hx : s.node x.1 = some ⟨x.2, sides dir y.1 (addr o), old⟩)
    (ho : Stored s o) (hY : Stored s (Frame.fill ⟨dir, y, n⟩ d)) (hC : StoredCtx s C x.1 h)
    (hap : Apart (Frame.fill ⟨dir, x, o⟩ (Frame.fill ⟨dir, y, n⟩ d)) C) (hbal : Balanced (Frame.fill ⟨dir, y, n⟩ d))
    (hdiff : (Frame.fill ⟨dir, y, n⟩ d).height = o.height + 2) :
    ∃ s', rot s (slot C) x.1 dir =
        some (((rotate dir (Frame.fill ⟨dir, x, o⟩ (Frame.fill ⟨dir, y, n⟩ d))).height : ℤ) - old,
          s') ∧
      Replaced s s' C (Frame.fill ⟨dir, x, o⟩ (Frame.fill ⟨dir, y, n⟩ d))
        (rotate dir (Frame.fill ⟨dir, x, o⟩ (Frame.fill ⟨dir, y, n⟩ d))) h := by
  obtain ⟨hy0, hy, hn, hd⟩ := (stored_fill _ _).mp hY
  simp only at hy0 hy hn
  obtain ⟨-, -, hdn, hnd⟩ := (balanced_fill _ _).mp hbal
  simp only [height_fill] at hdiff hdn hnd
  have hnodup := (List.nodup_append'.mp hap).1
  have hxy : x.1 ≠ y.1 := by
    intro heq
    exact (nodup_addrs_fill.mp hnodup).1 (mem_addrs_fill.mpr (Or.inl heq))
  have hxmem : x.1 ∈ addrs (Frame.fill ⟨dir, x, o⟩ (Frame.fill ⟨dir, y, n⟩ d)) :=
    mem_addrs_fill.mpr (Or.inl rfl)
  have hymem : y.1 ∈ addrs (Frame.fill ⟨dir, x, o⟩ (Frame.fill ⟨dir, y, n⟩ d)) :=
    mem_addrs_fill.mpr (Or.inr (Or.inl (mem_addrs_fill.mpr (Or.inl rfl))))
  have hkeeps : ∀ X Y, Keeps (addrs (Frame.fill ⟨dir, x, o⟩ (Frame.fill ⟨dir, y, n⟩ d))) s
      ((s.write x.1 X).write y.1 Y) := fun X Y =>
    ((Keeps.refl _ s).write hxmem (by rw [hx]; rfl) X).write hymem (by rw [hy]; rfl) Y
  have hin := inorder_rotate dir (Frame.fill ⟨dir, x, o⟩ (Frame.fill ⟨dir, y, n⟩ d))
  have hhd : s.height (sides dir (addr d) (addr n) dir) = some (d.height : ℤ) := by
    rw [sides_self]
    exact hd.height_eq
  rcases le_or_gt n.height d.height with hle | hlt
  · -- the outer grandchild is at least as high as the inner one
    rw [rotate_fill_single hle] at hin ⊢
    have hrun := rot_single hx hy (sides_self _ _ _) (sides_not _ _ _) hxy hn.height_eq hhd
      (by exact_mod_cast hle) (slot C)
    simp only [update_sides_self, update_sides_not] at hrun
    rw [hrun]
    have hst := stored_single hx0 hy0 ho hn hd hnodup (by omega) (by omega)
    have hfin := replaced_of_put hst hC hap rfl (hkeeps _ _) (fill_ne_nil _ _) hin old
    rw [addr_fill] at hfin
    exact hfin
  · obtain ⟨z, n₁, n₂, rfl⟩ : ∃ z n₁ n₂, n = Frame.fill ⟨dir, z, n₁⟩ n₂ := by
      cases n with
      | nil => simp at hlt
      | node z m1 m2 =>
        cases dir
        · exact ⟨z, m2, m1, rfl⟩
        · exact ⟨z, m1, m2, rfl⟩
    rw [rotate_fill_double hlt] at hin ⊢
    obtain ⟨hz0, hz, hn1, hn2⟩ := (stored_fill _ _).mp hn
    simp only at hz0 hz hn1
    simp only [height_fill] at hlt hdiff hdn hnd
    obtain ⟨hxz, hyz⟩ : x.1 ≠ z.1 ∧ y.1 ≠ z.1 := by
      have hnd' := hnodup
      simp only [nodup_addrs_fill, mem_addrs_fill, not_or] at hnd'
      exact ⟨hnd'.1.2.2.1, hnd'.2.2.1.2.1.1⟩
    have hrun := rot_double hx hy hz (sides_self _ _ _)
      ((sides_not _ _ _).trans (addr_fill _ _)) hz0 hxy hxz hyz hhd (Nat.cast_lt.mpr hlt) (slot C)
    simp only [update_sides_self, update_sides_not, sides_self, sides_not] at hrun
    rw [hrun]
    have hst := stored_double hx0 hy0 hz0 ho hn1 hn2 hd hnodup
      (show _ = max n₂.height n₁.height + 1 by omega) (by omega)
    have hkeeps' := (hkeeps ⟨x.2, sides dir (addr n₁) (addr o), ((max n₂.height n₁.height + 1 : ℕ) : ℤ)⟩
      ⟨y.2, sides dir (addr d) (addr n₂), ((max n₂.height n₁.height + 1 : ℕ) : ℤ)⟩).write
        (mem_addrs_fill.mpr (Or.inr (Or.inl (mem_addrs_fill.mpr (Or.inr (Or.inr
          (mem_addrs_fill.mpr (Or.inl rfl)))))))) (by rw [hz]; rfl)
        ⟨z.2, sides dir y.1 x.1, ((max n₂.height n₁.height + 1 : ℕ) : ℤ) + 1⟩
    have hfin := replaced_of_put hst hC hap rfl hkeeps' (fill_ne_nil _ _) hin old
    rw [addr_fill] at hfin
    exact hfin

/-- **`__tsearch_balance`** on a node whose subtrees are balanced and differ in height by at most two:
it rebalances, whatever height the node holds, and returns the change of that height. -/
theorem balance_spec {l r : BinaryTree (ℕ × κ)} (hx0 : x.1 ≠ 0)
    (hx : s.node x.1 = some ⟨x.2, kids (addr l) (addr r), old⟩) (hl : Stored s l)
    (hr : Stored s r) (hC : StoredCtx s C x.1 h) (hap : Apart (node x l r) C)
    (hbl : Balanced l) (hbr : Balanced r) (hlr : l.height ≤ r.height + 2) (hrl : r.height ≤ l.height + 2) :
    ∃ s', balance s (slot C) = some (((rebalance (node x l r)).height : ℤ) - old, s') ∧
      Replaced s s' C (node x l r) (rebalance (node x l r)) h := by
  simp only [balance, hC.get_slot, Option.bind_eq_bind, Option.bind_some, Heap.a_eq hx, kids_false,
    kids_true, hl.height_eq, hr.height_eq, rebalance]
  by_cases hbal : l.height ≤ r.height + 1 ∧ r.height ≤ l.height + 1
  · -- only the height is stored
    have hcmp : ((l.height : ℤ) - r.height + 1) % 2 ^ 32 < 3 := by omega
    have hh : (if (l.height : ℤ) < r.height then (r.height : ℤ) + 1 else (l.height : ℤ) + 1) =
        ((max l.height r.height + 1 : ℕ) : ℤ) := by
      split <;> push_cast <;> omega
    rw [if_pos hcmp, if_pos hbal, Heap.h_eq hx, Heap.setH_eq hx, hh]
    simp only [Option.bind_some, Heap.h, Heap.write_node_self]
    obtain ⟨hnodup, -, hdisj⟩ := List.nodup_append'.mp hap
    have hxmem : x.1 ∈ addrs (node x l r) := mem_addrs_node.mpr (Or.inr (Or.inl rfl))
    have hnd : (addrs (Frame.fill ⟨true, x, l⟩ r)).Nodup := hnodup
    obtain ⟨hxr, hxl, -⟩ := nodup_addrs_fill.mp hnd
    refine ⟨_, rfl, ⟨hx0, Heap.write_node_self _ _ _, hl.write hxl _, hr.write hxr _⟩,
      hC.congr rfl fun q hq => s.write_node_of_ne _ fun heq => ?_, ?_⟩
    · exact hdisj hxmem (heq ▸ hq)
    · exact (Keeps.refl _ s).write (List.mem_append_left _ hxmem) (by rw [hx]; rfl) _
  · have hcmp : ¬ ((l.height : ℤ) - r.height + 1) % 2 ^ 32 < 3 := by omega
    rw [if_neg hcmp, if_neg hbal]
    by_cases hlt : l.height < r.height
    · have hdec : decide ((l.height : ℤ) < (r.height : ℤ)) = true := by simpa using hlt
      rw [hdec, decide_eq_true hlt]
      cases r with
      | nil => simp at hlt
      | node y n d =>
        exact rot_spec hx0 hx hl hr hC hap hbr
          (by simp only [Frame.fill, if_true]; omega)
    · have hdec : decide ((l.height : ℤ) < (r.height : ℤ)) = false := by simpa using hlt
      rw [hdec, decide_eq_false hlt]
      cases l with
      | nil =>
        simp only [height] at hbal hlt
        omega
      | node y d n =>
        exact rot_spec hx0 hx hr hl hC hap hbl
          (by simp only [Frame.fill, Bool.false_eq_true, if_false]; omega)

end Rotations

/-! ## Up to the root -/

/-- The entries of the array that lead to the hole of a context, from the hole to `rootp`. -/
def slots : List (Frame (ℕ × κ)) → List Slot
  | [] => [.root]
  | f :: C => .child f.val.1 f.dir :: slots C

theorem slots_eq_cons (C : List (Frame (ℕ × κ))) : slots C = slot C :: (slots C).tail := by
  cases C <;> rfl

theorem length_slots (C : List (Frame (ℕ × κ))) : (slots C).length = C.length + 1 := by
  induction C with
  | nil => rfl
  | cons f C ih => rw [slots, List.length_cons, ih, List.length_cons]

/-- A balanced tree stands in the hole of a context that is stored, and balanced, for the height the
hole had before; the two heights differ by at most one. -/
structure Climbing (s : Heap κ) (C : List (Frame (ℕ × κ))) (t : BinaryTree (ℕ × κ)) (h : ℕ) : Prop where
  stored : Stored s t
  ctx : StoredCtx s C (addr t) h
  apart : Apart t C
  balanced : Balanced t
  fits : Fits C h
  le : t.height ≤ h + 1
  ge : h ≤ t.height + 1

/-- A balanced tree that is all there is on the heap under `*rootp`. -/
structure Holds (s : Heap κ) (t : BinaryTree (ℕ × κ)) : Prop where
  stored : Stored s t
  root : s.root = addr t
  nodup : (addrs t).Nodup
  balanced : Balanced t

theorem Climbing.holds (hc : Climbing s C t h) (hh : t.height = h) : Holds s (plug C t) := by
  subst hh
  obtain ⟨hst, hroot⟩ := (stored_plug C t).mpr ⟨hc.stored, hc.ctx⟩
  exact ⟨hst, hroot, (apart_plug C t).mp hc.apart, (balanced_plug C t).mpr ⟨hc.balanced, hc.fits⟩⟩

/-- **One step of the climb.** -/
theorem Climbing.step (hc : Climbing s (f :: C) t h) :
    ∃ s', balance s (slot C) =
        some (((rebalance (f.fill t)).height : ℤ) - ((max h f.sib.height + 1 : ℕ) : ℤ), s') ∧
      Climbing s' C (rebalance (f.fill t)) (max h f.sib.height + 1) ∧
      Keeps (addrs (f.fill t) ++ ctxAddrs C) s s' := by
  obtain ⟨hne, hf, hsib, hrest⟩ := hc.ctx
  obtain ⟨hbal, hle, hge, hfits⟩ := hc.fits
  have hap := (apart_fill f C t).mpr hc.apart
  have hle' := hc.le
  have hge' := hc.ge
  have hinorder := inorder_rebalance (f.fill t)
  have hspec : ∃ s', balance s (slot C) =
        some (((rebalance (f.fill t)).height : ℤ) - ((max h f.sib.height + 1 : ℕ) : ℤ), s') ∧
      Replaced s s' C (f.fill t) (rebalance (f.fill t)) (max h f.sib.height + 1) ∧
      Balanced (rebalance (f.fill t)) ∧
      (rebalance (f.fill t)).height ≤ max t.height f.sib.height + 1 ∧
      max t.height f.sib.height ≤ (rebalance (f.fill t)).height ∧
      min t.height f.sib.height < (rebalance (f.fill t)).height := by
    rcases f with ⟨_ | _, x, o⟩
    · obtain ⟨s', hrun, hrep⟩ := balance_spec hne hf hc.stored hsib hrest hap hc.balanced hbal
        (by simp only at *; omega) (by simp only at *; omega)
      exact ⟨s', hrun, hrep, rebalance_spec hc.balanced hbal (by simp only at *; omega)
        (by simp only at *; omega)⟩
    · obtain ⟨s', hrun, hrep⟩ := balance_spec hne hf hsib hc.stored hrest hap hbal hc.balanced
        (by simp only at *; omega) (by simp only at *; omega)
      have hreb := rebalance_spec (x := x) hbal hc.balanced (by simp only at *; omega)
        (by simp only at *; omega)
      rw [max_comm, min_comm] at hreb
      exact ⟨s', hrun, hrep, hreb⟩
  obtain ⟨s', hrun, hrep, hbal', hup, hlo, hmin⟩ := hspec
  have hle'' : (rebalance (f.fill t)).height ≤ max h f.sib.height + 1 + 1 := by omega
  have hge'' : max h f.sib.height + 1 ≤ (rebalance (f.fill t)).height + 1 := by omega
  refine ⟨s', hrun, ⟨hrep.stored, hrep.ctx, ?_, hbal', hfits, hle'', hge''⟩, hrep.keeps⟩
  have haddrs : addrs (rebalance (f.fill t)) = addrs (f.fill t) :=
    congrArg (List.map Prod.fst) hinorder
  rw [Apart, haddrs]
  exact hap

/-- **The climb to the root** ends with a balanced tree that has the same values in the same order. -/
theorem balanceUp_spec (C : List (Frame (ℕ × κ))) :
    ∀ {s : Heap κ} {t : BinaryTree (ℕ × κ)} {h : ℕ}, Climbing s C t h →
      ∃ s' t', balanceUp s (slots C).tail = some s' ∧ Holds s' t' ∧
        inorder t' = inorder (plug C t) ∧ Keeps (addrs t ++ ctxAddrs C) s s' := by
  induction C with
  | nil =>
    intro s t h hc
    have hnd : (addrs t).Nodup := (List.nodup_append'.mp hc.apart).1
    exact ⟨s, t, rfl, ⟨hc.stored, hc.ctx, hnd, hc.balanced⟩, rfl, Keeps.refl _ s⟩
  | cons f C ih =>
    intro s t h hc
    obtain ⟨s1, hrun, hc1, hkeeps⟩ := hc.step
    have hin : inorder (plug C (rebalance (f.fill t))) = inorder (plug (f :: C) t) := by
      rw [inorder_plug, inorder_rebalance, ← inorder_plug, plug]
    have hsub : ∀ n ∈ addrs (f.fill t) ++ ctxAddrs C, n ∈ addrs t ++ ctxAddrs (f :: C) := by
      intro n hn
      simp only [List.mem_append, mem_addrs_fill, mem_ctxAddrs_cons] at hn ⊢
      tauto
    rw [slots, List.tail_cons, slots_eq_cons, balanceUp, hrun]
    simp only [Option.bind_eq_bind, Option.bind_some]
    by_cases hchange :
        ((rebalance (f.fill t)).height : ℤ) - ((max h f.sib.height + 1 : ℕ) : ℤ) = 0
    · rw [if_pos hchange]
      have hheight : (rebalance (f.fill t)).height = max h f.sib.height + 1 := by omega
      exact ⟨s1, _, rfl, hc1.holds hheight, hin, hkeeps.trans (Keeps.refl _ s1) hsub⟩
    · rw [if_neg hchange]
      obtain ⟨s', t', hup, hholds, hin', hkeeps'⟩ := ih hc1
      have haddrs : addrs (rebalance (f.fill t)) = addrs (f.fill t) :=
        congrArg (List.map Prod.fst) (inorder_rebalance _)
      rw [haddrs] at hkeeps'
      exact ⟨s', t', hup, hholds, hin'.trans hin,
        (hkeeps.trans hkeeps' fun _ hn => hn).trans (Keeps.refl _ s') hsub⟩

/-- The loop of `tdelete` leaves the first entry of the array alone, and is that of `tsearch` on the
others. -/
theorem deleteUp_append (s : Heap κ) (a : List Slot) (p : Slot) :
    deleteUp s (a ++ [p]) = balanceUp s a := by
  induction a generalizing s with
  | nil => rfl
  | cons q a ih =>
    have hne : a ++ [p] ≠ [] := by simp
    rw [List.cons_append, balanceUp]
    obtain ⟨r, l, hl⟩ := List.exists_cons_of_ne_nil hne
    rw [hl, deleteUp, ← hl]
    · simp only [ih]
    · simp

end Leblibc.Tsearch

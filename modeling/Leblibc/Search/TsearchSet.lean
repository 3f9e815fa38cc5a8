import Leblibc.Lib.Memory
import Leblibc.Search.TsearchTree

/-!
# Search trees are sets of keys

`tsearch` inserts a key and `tdelete` deletes one; after any sequence of calls the heap stores a
height-balanced search tree of exactly the keys inserted and not deleted since. The arrays in which
the two functions keep their path are never overrun: a balanced tree that would need more entries
than there are has more nodes than fit in the address space.

## Main results

* `tsearch_spec`, `tdelete_spec`: one call
* `height_lt_MAXH`: a tree that fits in the address space is lower than `MAXH`
* `search_tree_correct`: what holds after any sequence of calls
* `tdestroy_frees`: all of it is freed
-/

namespace Leblibc.Tsearch

open Lib BinaryTree

/-- A comparison function that orders the keys: keys that compare equal are one key. -/
structure Comparator (κ : Type) where
  cmp : κ → κ → ℤ
  cmp_self : ∀ x, cmp x x = 0
  cmp_swap : ∀ x y, 0 < cmp x y ↔ cmp y x < 0
  cmp_trans : ∀ x y z, cmp x y ≤ 0 → cmp y z ≤ 0 → cmp x z ≤ 0

variable {κ : Type} (c : Comparator κ)

namespace Comparator

variable {c} {x y z : κ}

theorem le_swap : c.cmp x y ≤ 0 ↔ 0 ≤ c.cmp y x := by
  rw [← not_lt, c.cmp_swap, not_lt]

theorem eq_swap (h : c.cmp x y = 0) : c.cmp y x = 0 :=
  le_antisymm (le_swap.mpr h.ge) (le_swap.mp h.le)

theorem eq_trans (hxy : c.cmp x y = 0) (hyz : c.cmp y z = 0) : c.cmp x z = 0 :=
  le_antisymm (c.cmp_trans x y z hxy.le hyz.le)
    (le_swap.mp (c.cmp_trans z y x (eq_swap hyz).le (eq_swap hxy).le))

theorem lt_of_lt_of_le (hxy : c.cmp x y < 0) (hyz : c.cmp y z ≤ 0) : c.cmp x z < 0 := by
  by_contra hxz
  have hyx := c.cmp_trans y z x hyz (le_swap.mpr (not_lt.mp hxz))
  exact absurd hxy (not_lt.mpr (le_swap.mp hyx))

end Comparator

/-- The values of the tree stand in increasing order. -/
def InOrder (t : BinaryTree (ℕ × κ)) : Prop :=
  (inorder t).Pairwise fun x y => c.cmp x.2 y.2 < 0

/-- The key belongs in the hole of the context. -/
structure Around (key : κ) (C : List (Frame (ℕ × κ))) : Prop where
  before_lt : ∀ e ∈ before C, c.cmp e.2 key < 0
  lt_after : ∀ e ∈ after C, c.cmp key e.2 < 0

/-! ## The way down -/

variable {C : List (Frame (ℕ × κ))} {x : ℕ × κ} {r : ℕ} {m : BinaryTree (ℕ × κ)} {h : ℕ}

section Descent

variable {c} {s : Heap κ} {key : κ}

theorem push_of_lt {len : ℕ} {a : List Slot} (h : a.length < len) (p : Slot) :
    push len a p = some (p :: a) := if_pos h

/-- The subtree of a search tree in which the key belongs. -/
theorem Around.cons {l r : BinaryTree (ℕ × κ)}
    (h : Around c key C) (ho : InOrder c (node x l r)) (hne : c.cmp key x.2 ≠ 0) :
    Around c key (⟨decide (c.cmp key x.2 > 0), x, if c.cmp key x.2 > 0 then l else r⟩ :: C) := by
  obtain ⟨-, hx, hl⟩ := List.pairwise_append.mp ho
  have hxr := (List.pairwise_cons.mp hx).1
  by_cases hgt : c.cmp key x.2 > 0
  · have hlt : c.cmp x.2 key < 0 := (c.cmp_swap _ _).mp hgt
    rw [if_pos hgt, decide_eq_true hgt]
    refine ⟨fun e he => ?_, fun e he => h.lt_after e (by simpa [after] using he)⟩
    simp only [before, if_true, List.mem_append, List.mem_singleton] at he
    rcases he with he | he | rfl
    · exact h.before_lt e he
    · exact Comparator.lt_of_lt_of_le (hl e he x List.mem_cons_self) hlt.le
    · exact hlt
  · have hlt : c.cmp key x.2 < 0 := lt_of_le_of_ne (not_lt.mp hgt) hne
    rw [if_neg hgt, decide_eq_false hgt]
    refine ⟨fun e he => h.before_lt e (by simpa [before] using he), fun e he => ?_⟩
    simp only [after, Bool.false_eq_true, if_false, List.mem_append, List.mem_cons] at he
    rcases he with (rfl | he) | he
    · exact hlt
    · exact Comparator.lt_of_lt_of_le hlt (hxr e he).le
    · exact h.lt_after e he

/-- **The way down**: it ends at the node that holds the key, or at the place where the key belongs,
and the array leads there. -/
theorem descend_spec (key : κ) (t : BinaryTree (ℕ × κ)) :
    ∀ (C : List (Frame (ℕ × κ))) (e : List Slot) (len fuel : ℕ), Stored s t →
      InOrder c t → Around c key C → t.height + (slots C ++ e).length ≤ len → t.height ≤ fuel →
      ∃ C' t', descend s c.cmp key len fuel (addr t) (slots C ++ e) =
          some (addr t', slots C' ++ e) ∧ plug C' t' = plug C t ∧ Around c key C' ∧
        (t' = nil ∨ ∃ x l r, t' = node x l r ∧ c.cmp key x.2 = 0) := by
  induction t with
  | nil =>
    intro C e len fuel _ _ hC _ _
    refine ⟨C, nil, ?_, rfl, hC, Or.inl rfl⟩
    unfold descend
    rfl
  | node x l r ihl ihr =>
    intro C e len fuel hst ho hC hlen hfuel
    obtain ⟨hx0, hx, hl, hr⟩ := hst
    have hol : InOrder c l := (List.pairwise_append.mp ho).1
    have hor : InOrder c r := (List.pairwise_cons.mp (List.pairwise_append.mp ho).2.1).2
    unfold descend
    simp only [addr_node, if_neg hx0, Heap.key, hx, Option.map_some, Option.bind_eq_bind,
      Option.bind_some]
    by_cases hc : c.cmp key x.2 = 0
    · rw [if_pos hc]
      exact ⟨C, node x l r, rfl, rfl, hC, Or.inr ⟨x, l, r, rfl, hc⟩⟩
    · simp only [height] at hlen hfuel
      have hC' := hC.cons ho hc
      rcases fuel with _ | fuel
      · omega
      rw [if_neg hc, push_of_lt (by omega)]
      simp only [Heap.a_eq hx]
      by_cases hgt : c.cmp key x.2 > 0
      · rw [decide_eq_true hgt]
        rw [if_pos hgt, decide_eq_true hgt] at hC'
        exact ihr (⟨true, x, l⟩ :: C) e len fuel hr hor hC'
          (by simp only [slots, List.cons_append, List.length_cons]; omega) (by omega)
      · rw [decide_eq_false hgt]
        rw [if_neg hgt, decide_eq_false hgt] at hC'
        exact ihl (⟨false, x, r⟩ :: C) e len fuel hl hol hC'
          (by simp only [slots, List.cons_append, List.length_cons]; omega) (by omega)

end Descent

/-! ## Insertion -/

section Insertion

variable {c} {s : Heap κ} {key : κ} {arch : Arch}

theorem kids_zero : kids 0 0 = fun _ => 0 := by
  funext dir
  cases dir <;> rfl

/-- The new node is put in the hole, and the climb begins. -/
theorem climbing_insert (key : κ) (hr : r ≠ 0)
    (hC : StoredCtx s C 0 0) (hap : Apart nil C) (hfits : Fits C 0) (hfresh : r ∉ ctxAddrs C) :
    ∃ s', (s.write r ⟨key, fun _ => 0, 1⟩).put (slot C) r = some s' ∧
      Climbing s' C (node (r, key) nil nil) 0 ∧
      Keeps (ctxAddrs C) (s.write r ⟨key, fun _ => 0, 1⟩) s' := by
  have hnd : (ctxAddrs C).Nodup := hap
  have hC1 : StoredCtx (s.write r ⟨key, fun _ => 0, 1⟩) C 0 0 :=
    hC.congr rfl fun q hq => s.write_node_of_ne _ fun heq => hfresh (heq ▸ hq)
  obtain ⟨s', hput, hC', hkeeps⟩ := hC1.put_slot hnd r
  refine ⟨s', hput, ⟨⟨hr, ?_, trivial, trivial⟩, hC', ?_, by simp, hfits, by simp, by simp⟩, hkeeps⟩
  · rw [hkeeps.node_eq r hfresh]
    simp [kids_zero]
  · have haddrs : addrs (node (r, key) nil nil) = [r] := rfl
    rw [Apart, haddrs, List.singleton_append, List.nodup_cons]
    exact ⟨hfresh, hnd⟩

/-- The values of a search tree that stand before a hole where the key belongs, and after it. -/
theorem Around.not_mem (h : Around c key C) {e : ℕ × κ} (he : e ∈ before C ++ after C) : c.cmp key e.2 ≠ 0 := by
  intro heq
  rcases List.mem_append.mp he with he | he
  · exact absurd (Comparator.eq_swap heq) (h.before_lt e he).ne
  · exact absurd heq (h.lt_after e he).ne

/-- **`tsearch`** finds the key, or inserts it in a new node if there is memory for one. -/
theorem tsearch_spec (key : κ) {t : BinaryTree (ℕ × κ)} (hs : Holds s t) (ho : InOrder c t)
    (hheight : t.height < MAXH arch) (hr : r ∉ addrs t) :
    (∃ x ∈ inorder t, c.cmp key x.2 = 0 ∧
        tsearch arch c.cmp key (some .root) r s = some (x.1, s)) ∨
      (∀ x ∈ inorder t, c.cmp key x.2 ≠ 0) ∧
        (r = 0 ∧ tsearch arch c.cmp key (some .root) r s = some (0, s) ∨
          r ≠ 0 ∧ ∃ s' t' A B, tsearch arch c.cmp key (some .root) r s = some (r, s') ∧
            Holds s' t' ∧ inorder t = A ++ B ∧ inorder t' = A ++ (r, key) :: B ∧
            (∀ e ∈ A, c.cmp e.2 key < 0) ∧ (∀ e ∈ B, c.cmp key e.2 < 0) ∧
            ∀ n, (s'.node n).isSome ↔ n = r ∨ (s.node n).isSome) := by
  have hpush : push (MAXH arch) [] .root = some [.root] :=
    push_of_lt (Nat.lt_of_le_of_lt (Nat.zero_le _) hheight) _
  obtain ⟨C, t', hdesc, hplug, hC, hend⟩ := descend_spec key t [] []
    (MAXH arch) (MAXH arch) hs.stored ho ⟨by simp [before], by simp [after]⟩
    (by simpa [slots] using hheight) hheight.le
  simp only [slots, List.append_nil] at hdesc
  simp only [plug] at hplug
  unfold tsearch
  simp only [Heap.get, hpush, Option.bind_eq_bind, Option.bind_some, hs.root, hdesc]
  rcases hend with rfl | ⟨x, l, r', rfl, hx⟩
  · -- the key is missing, and belongs in the hole of `C`
    right
    have hin : inorder t = before C ++ after C := by
      rw [← hplug, inorder_plug]
      simp
    refine ⟨fun x hx => hC.not_mem (hin ▸ hx), ?_⟩
    simp only [addr_nil, ne_eq, not_true_eq_false, if_false]
    by_cases hr0 : r = 0
    · left
      rw [if_pos hr0]
      exact ⟨hr0, rfl⟩
    · right
      rw [if_neg hr0]
      obtain ⟨-, hctx⟩ := (stored_plug C nil).mp (by rw [hplug]; exact ⟨hs.stored, hs.root⟩)
      have hap : Apart nil C := (apart_plug C nil).mpr (by rw [hplug]; exact hs.nodup)
      have hfits := ((balanced_plug C nil).mp (by rw [hplug]; exact hs.balanced)).2
      have hfresh : r ∉ ctxAddrs C := by
        rw [ctxAddrs, ← hin]
        exact hr
      obtain ⟨s1, hput, hclimb, hkeeps1⟩ := climbing_insert key hr0 hctx hap hfits hfresh
      obtain ⟨s', t', hup, hholds, hin', hkeeps⟩ := balanceUp_spec C hclimb
      refine ⟨hr0, s', t', before C, after C, ?_, hholds, hin, ?_, hC.before_lt, hC.lt_after,
        fun n => ?_⟩
      · rw [slots_eq_cons]
        simp only [hput, Option.bind_some, hup]
      · rw [hin', inorder_plug]
        simp
      · rw [hkeeps.isSome_eq, hkeeps1.isSome_eq]
        by_cases hn : n = r
        · simp [hn]
        · rw [s.write_node_of_ne _ hn]
          simp [hn]
  · -- the key is there
    left
    have hx0 : x.1 ≠ 0 := by
      obtain ⟨hst, -⟩ := (stored_plug C (node x l r')).mp (by rw [hplug]; exact ⟨hs.stored, hs.root⟩)
      exact hst.1
    refine ⟨x, ?_, hx, by simp only [addr_node, ne_eq, hx0, not_false_eq_true, if_true]⟩
    rw [← hplug, inorder_plug]
    simp

end Insertion

/-! ## Deletion -/

section Deletion

variable {c} {s : Heap κ} {key : κ} {arch : Arch}

theorem rightmost_spec (t : BinaryTree (ℕ × κ)) :
    ∀ (C : List (Frame (ℕ × κ))) (e : List Slot) (len fuel : ℕ), Stored s t → t ≠ nil →
      t.height + (slots C ++ e).length ≤ len + 1 → t.height ≤ fuel + 1 →
      ∃ D y m, rightmost s len fuel (addr t) (slots C ++ e) = some (y.1, slots (D ++ C) ++ e) ∧
        plug D (node y m nil) = t ∧ after D = [] := by
  induction t with
  | nil =>
    intro C e len fuel _ hne
    exact absurd rfl hne
  | node x l r _ ihr =>
    intro C e len fuel hst _ hlen hfuel
    obtain ⟨hx0, hx, -, hr⟩ := hst
    unfold rightmost
    simp only [addr_node, Heap.a_eq hx, kids_true, Option.bind_eq_bind, Option.bind_some]
    cases r with
    | nil =>
      refine ⟨[], x, l, ?_, rfl, rfl⟩
      simp
    | node y m r' =>
      simp only [height] at hlen hfuel
      rcases fuel with _ | fuel
      · omega
      obtain ⟨D, z, m', hrun, hplug, hafter⟩ := ihr (⟨true, x, l⟩ :: C) e len fuel hr (by simp)
        (by simp only [slots, List.cons_append, List.length_cons, height]; omega)
        (by simp only [height]; omega)
      refine ⟨D ++ [⟨true, x, l⟩], z, m', ?_, ?_, ?_⟩
      · have hy0 : addr (node y m r') ≠ 0 := hr.1
        rw [if_neg hy0, push_of_lt (by omega), List.append_assoc]
        exact hrun
      · rw [plug_append, hplug]
        rfl
      · rw [after_append, hafter]
        rfl

/-- A node without one of its subtrees is freed, the other subtree is put in its place, and the climb
begins. -/
theorem climbing_remove {p : ℕ} (hC : StoredCtx s C p (m.height + 1)) (hm : Stored s m) (hpm : p ∉ addrs m)
    (hpC : p ∉ ctxAddrs C) (hap : Apart m C) (hbal : Balanced m) (hfits : Fits C (m.height + 1)) :
    ∃ s', (s.free p).put (slot C) (addr m) = some s' ∧ Climbing s' C m (m.height + 1) ∧
      Keeps (ctxAddrs C) (s.free p) s' := by
  obtain ⟨-, hnd, hdisj⟩ := List.nodup_append'.mp hap
  have hfree : ∀ q, q ≠ p → (s.free p).node q = s.node q := fun q hq => by
    simp [Heap.free, hq]
  have hC1 : StoredCtx (s.free p) C p (m.height + 1) :=
    hC.congr rfl fun q hq => hfree q fun heq => hpC (heq ▸ hq)
  obtain ⟨s', hput, hC', hkeeps⟩ := hC1.put_slot hnd (addr m)
  refine ⟨s', hput, ⟨?_, hC', hap, hbal, hfits, by omega, by omega⟩, hkeeps⟩
  refine hm.congr fun q hq => ?_
  rw [hkeeps.node_eq q fun hqC => hdisj hq hqC, hfree q fun heq => hpm (heq ▸ hq)]

/-- The same context with another key in one of its frames. -/
theorem rekey_slots (D C : List (Frame (ℕ × κ))) (dir : Bool) (p : ℕ) (k k' : κ)
    (o : BinaryTree (ℕ × κ)) : slots (D ++ ⟨dir, (p, k), o⟩ :: C) = slots (D ++ ⟨dir, (p, k'), o⟩ :: C) := by
  induction D with
  | nil => rfl
  | cons g D ih => simp only [List.cons_append, slots, ih]

theorem rekey_ctxAddrs (D C : List (Frame (ℕ × κ))) (dir : Bool) (p : ℕ) (k k' : κ) (o : BinaryTree (ℕ × κ)) :
    ctxAddrs (D ++ ⟨dir, (p, k), o⟩ :: C) = ctxAddrs (D ++ ⟨dir, (p, k'), o⟩ :: C) := by
  cases dir <;> simp [ctxAddrs, before_append, after_append, before, after]

theorem rekey_fits (D C : List (Frame (ℕ × κ))) (dir : Bool) (p : ℕ) (k k' : κ)
    (o : BinaryTree (ℕ × κ)) (hfits : Fits (D ++ ⟨dir, (p, k), o⟩ :: C) h) :
    Fits (D ++ ⟨dir, (p, k'), o⟩ :: C) h := by
  induction D generalizing h with
  | nil => exact hfits
  | cons g D ih => exact ⟨hfits.1, hfits.2.1, hfits.2.2.1, ih hfits.2.2.2⟩

theorem rekey_stored (D C : List (Frame (ℕ × κ))) (dir : Bool) (p : ℕ) (k k' : κ)
    (o : BinaryTree (ℕ × κ)) {q : ℕ} (hC : StoredCtx s (D ++ ⟨dir, (p, k), o⟩ :: C) q h)
    (hnd : (ctxAddrs (D ++ ⟨dir, (p, k), o⟩ :: C)).Nodup) :
    ∃ s', s.setKey p k' = some s' ∧ StoredCtx s' (D ++ ⟨dir, (p, k'), o⟩ :: C) q h ∧
      Keeps [p] s s' := by
  induction D generalizing q h with
  | nil =>
    obtain ⟨hp0, hp, ho, hrest⟩ := hC
    obtain ⟨hnot, -⟩ := List.nodup_cons.mp ((ctxAddrs_cons_perm _ C).nodup_iff.mp hnd)
    refine ⟨s.write p ⟨k', sides dir q (addr o), ((max h o.height + 1 : ℕ) : ℤ)⟩, ?_,
      ⟨hp0, Heap.write_node_self _ _ _, ho.write (fun hmem => ?_) _,
        hrest.congr rfl fun n hn => s.write_node_of_ne _ fun heq => ?_⟩, ?_⟩
    · simp only [Heap.setKey] at hp ⊢
      rw [hp]
      rfl
    · exact hnot (List.mem_append_left _ hmem)
    · exact hnot (List.mem_append_right _ (heq ▸ hn))
    · exact (Keeps.refl _ s).write (List.mem_singleton_self p) (by simp only at hp; rw [hp]; rfl) _
  | cons g D ih =>
    obtain ⟨hg0, hg, hsib, hrest⟩ := hC
    obtain ⟨hnot, hnd'⟩ := List.nodup_cons.mp ((ctxAddrs_cons_perm g _).nodup_iff.mp hnd)
    obtain ⟨-, hnd'', hdisj⟩ := List.nodup_append'.mp hnd'
    obtain ⟨s', hset, hC', hkeeps⟩ := ih hrest hnd''
    have hpmem : p ∈ ctxAddrs (D ++ ⟨dir, (p, k), o⟩ :: C) := by
      cases dir <;> simp [ctxAddrs, before_append, after_append, before, after]
    refine ⟨s', hset, ⟨hg0, ?_, hsib.congr fun n hn => hkeeps.node_eq n ?_, hC'⟩, hkeeps⟩
    · rw [hkeeps.node_eq, hg]
      simp only [List.mem_singleton]
      exact fun heq => hnot (List.mem_append_right _ (heq ▸ hpmem))
    · simp only [List.mem_singleton]
      exact fun heq => hdisj hn (heq ▸ hpmem)

/-- One node has gone, and with it the key `k`. -/
structure Removed (s s' : Heap κ) (t t' : BinaryTree (ℕ × κ)) (k : κ) : Prop where
  holds : Holds s' t'
  keys : ∃ A B, (inorder t).map Prod.snd = A ++ k :: B ∧ (inorder t').map Prod.snd = A ++ B
  live : ∃ p, (∀ n, (s'.node n).isSome ↔ (s.node n).isSome ∧ n ≠ p) ∧
    ∀ n, n ∈ addrs t' ↔ n ∈ addrs t ∧ n ≠ p

theorem mem_addrs_plug (C : List (Frame (ℕ × κ))) (t : BinaryTree (ℕ × κ)) (n : ℕ) :
    n ∈ addrs (plug C t) ↔ n ∈ addrs t ∨ n ∈ ctxAddrs C := by
  rw [addrs, inorder_plug, addrs, ctxAddrs]
  simp only [List.map_append, List.mem_append]
  tauto

/-- The end of a deletion: the node `y`, which has no right or no left subtree, is freed, and the rest
`m` of it takes its place. -/
theorem remove_spec {p : ℕ}
    (hC : StoredCtx s C p (m.height + 1)) (hm : Stored s m) (hnd : (p :: (addrs m ++ ctxAddrs C)).Nodup)
    (hbal : Balanced m) (hfits : Fits C (m.height + 1)) :
    ∃ s1 s' t', (s.free p).put (slot C) (addr m) = some s1 ∧
      deleteUp s1 ((slots C).tail ++ [.root]) = some s' ∧ Holds s' t' ∧
      inorder t' = before C ++ inorder m ++ after C ∧ (∀ n, (s'.node n).isSome ↔ (s.node n).isSome ∧ n ≠ p) ∧
      ∀ n, n ∈ addrs t' ↔ (n = p ∨ n ∈ addrs m ∨ n ∈ ctxAddrs C) ∧ n ≠ p := by
  obtain ⟨hp, hap⟩ := List.nodup_cons.mp hnd
  rw [List.mem_append] at hp
  obtain ⟨s1, hput, hclimb, hkeeps1⟩ := climbing_remove hC hm (mt .inl hp) (mt .inr hp) hap hbal hfits
  obtain ⟨s', t', hup, hholds, hin, hkeeps⟩ := balanceUp_spec C hclimb
  refine ⟨s1, s', t', hput, ?_, hholds, ?_, fun n => ?_, fun n => ?_⟩
  · rw [deleteUp_append, hup]
  · rw [hin, inorder_plug]
  · rw [hkeeps.isSome_eq, hkeeps1.isSome_eq]
    by_cases hn : n = p <;> simp [Heap.free, hn]
  · rw [addrs, hin, ← addrs, mem_addrs_plug]
    by_cases hn : n = p
    · simpa [hn] using hp
    · simp [hn]

/-- The parent of the node in the hole of a context, or that node itself at the root. -/
def parentAddr (C : List (Frame (ℕ × κ))) (x : ℕ × κ) : ℕ :=
  match C with
  | [] => x.1
  | f :: _ => f.val.1

theorem get_parent (hC : StoredCtx s C x.1 h) :
    ((slots C ++ [.root])[1]?).bind s.get = some (parentAddr C x) := by
  cases C with
  | nil => exact congrArg some hC
  | cons f C =>
    obtain ⟨-, -, -, hrest⟩ := hC
    rw [slots, slots_eq_cons]
    exact hrest.get_slot

theorem remove_right {r : BinaryTree (ℕ × κ)} (hs : Holds s (plug C (node x nil r))) :
    ∃ s1 s' t', (s.free x.1).put (slot C) (addr r) = some s1 ∧
      deleteUp s1 ((slots C).tail ++ [.root]) = some s' ∧
      Removed s s' (plug C (node x nil r)) t' x.2 := by
  obtain ⟨⟨-, -, -, hr⟩, hC⟩ := (stored_plug C _).mp ⟨hs.stored, hs.root⟩
  obtain ⟨⟨-, hbal, -, -⟩, hfits⟩ := (balanced_plug C _).mp hs.balanced
  have hap := (apart_plug C _).mpr hs.nodup
  obtain ⟨s1, s', t', hput, hup, hholds, hin, hlive, haddrs⟩ := remove_spec hC hr hap hbal hfits
  refine ⟨s1, s', t', hput, hup, hholds,
    ⟨(before C).map Prod.snd, (inorder r ++ after C).map Prod.snd, ?_, ?_⟩, x.1, hlive, fun n => ?_⟩
  · simp [inorder_plug]
  · simp [hin]
  · rw [haddrs, mem_addrs_plug, mem_addrs_node]
    simp [or_assoc]

/-- A node with a left subtree: it gets the key of the last node `y` of that subtree, and `y` goes. -/
theorem remove_left {D : List (Frame (ℕ × κ))} {y : ℕ × κ} {r : BinaryTree (ℕ × κ)}
    (hs : Holds s (plug C (node x (plug D (node y m nil)) r))) (hafter : after D = []) :
    ∃ s1 s2 s' t', s.key y.1 = some y.2 ∧ s.setKey x.1 y.2 = some s1 ∧
      s1.a y.1 false = some (addr m) ∧
      (s1.free y.1).put (slot (D ++ ⟨false, x, r⟩ :: C)) (addr m) = some s2 ∧
      deleteUp s2 ((slots (D ++ ⟨false, x, r⟩ :: C)).tail ++ [.root]) = some s' ∧
      Removed s s' (plug C (node x (plug D (node y m nil)) r)) t' x.2 := by
  have hplug : plug C (node x (plug D (node y m nil)) r) =
      plug (D ++ ⟨false, x, r⟩ :: C) (node y m nil) := by
    rw [plug_append]
    rfl
  rw [hplug] at hs ⊢
  obtain ⟨hy, hC⟩ := (stored_plug _ _).mp ⟨hs.stored, hs.root⟩
  obtain ⟨⟨hbal, -, -, -⟩, hfits⟩ := (balanced_plug _ _).mp hs.balanced
  have hap := (apart_plug _ _).mpr hs.nodup
  have hheight : (node y m nil).height = m.height + 1 := by simp
  rw [hheight] at hC hfits
  obtain ⟨-, hndC, hdisj⟩ := List.nodup_append'.mp hap
  have hxmem : x.1 ∈ ctxAddrs (D ++ ⟨false, x, r⟩ :: C) := by
    simp [ctxAddrs, after_append, after]
  obtain ⟨s1, hset, hC1, hkeeps1⟩ := rekey_stored D C false x.1 x.2 y.2 r hC hndC
  have hy1 : Stored s1 (node y m nil) := by
    refine hy.congr fun q hq => hkeeps1.node_eq q ?_
    rw [List.mem_singleton]
    rintro rfl
    exact hdisj hq hxmem
  -- the context, with its new key, has the addresses and the heights it had
  have hnd : (y.1 :: (addrs m ++ ctxAddrs (D ++ ⟨false, (x.1, y.2), r⟩ :: C))).Nodup := by
    rw [rekey_ctxAddrs D C false x.1 y.2 x.2 r]
    have haddrs : addrs (node y m nil) = addrs m ++ [y.1] := by simp [addrs]
    have hap' : (addrs m ++ [y.1] ++ ctxAddrs (D ++ ⟨false, x, r⟩ :: C)).Nodup := haddrs ▸ hap
    rw [List.append_assoc] at hap'
    exact List.perm_middle.nodup_iff.mp hap'
  obtain ⟨s2, s', t', hput, hup, hholds, hin, hlive, haddrs⟩ := remove_spec hC1 hy1.2.2.1 hnd hbal
    (rekey_fits D C false x.1 x.2 y.2 r hfits)
  have hslot : slot (D ++ ⟨false, (x.1, y.2), r⟩ :: C) = slot (D ++ ⟨false, x, r⟩ :: C) := by
    cases D <;> rfl
  rw [rekey_slots D C false x.1 y.2 x.2 r] at hup
  rw [hslot] at hput
  refine ⟨s1, s2, s', t', ?_, hset, ?_, hput, hup, hholds, ?_, y.1, fun n => ?_, fun n => ?_⟩
  · simp [Heap.key, hy.2.1]
  · exact Heap.a_eq hy1.2.1 false
  · refine ⟨(before C ++ before D ++ inorder m).map Prod.snd ++ [y.2],
      (inorder r ++ after C).map Prod.snd, ?_, ?_⟩
    · simp [inorder_plug, before_append, after_append, before, after, hafter]
    · simp [hin, before_append, after_append, before, after, hafter]
  · rw [hlive, hkeeps1.isSome_eq]
    rfl
  · rw [haddrs, rekey_ctxAddrs D C false x.1 y.2 x.2 r, mem_addrs_plug, mem_addrs_node]
    simp only [addrs_nil, List.not_mem_nil, or_false]
    tauto

/-- The node of the tree that holds the key has its parent at `p`, or is the root and stands at `p`
itself. -/
def ParentOf (c : Comparator κ) (key : κ) (t : BinaryTree (ℕ × κ)) (p : ℕ) : Prop :=
  ∃ C x l r, t = plug C (node x l r) ∧ c.cmp key x.2 = 0 ∧ p = parentAddr C x

/-- **`tdelete`** deletes the key if it is there, and returns the address of the parent. -/
theorem tdelete_spec (key : κ) {t : BinaryTree (ℕ × κ)} (hs : Holds s t) (ho : InOrder c t)
    (hheight : t.height < MAXH arch) :
    ((∀ x ∈ inorder t, c.cmp key x.2 ≠ 0) ∧
        tdelete arch c.cmp key (some .root) s = some (0, s)) ∨
      ∃ p s' t' k, p ≠ 0 ∧ tdelete arch c.cmp key (some .root) s = some (p, s') ∧
        ParentOf c key t p ∧ c.cmp key k = 0 ∧ Removed s s' t t' k := by
  have hpush1 : push (MAXH arch + 1) [] .root = some [.root] := push_of_lt (Nat.succ_pos _) _
  have hpush2 : push (MAXH arch + 1) [.root] .root = some [.root, .root] :=
    push_of_lt (by simp only [List.length_singleton]; omega) _
  obtain ⟨C, t', hdesc, hplug, hC, hend⟩ := descend_spec key t [] [.root]
    (MAXH arch + 1) (MAXH arch + 1) hs.stored ho ⟨by simp [before], by simp [after]⟩
    (by simp only [slots, List.singleton_append, List.length_cons, List.length_nil]; omega) (by omega)
  simp only [slots, List.singleton_append] at hdesc
  subst hplug
  have hroot : s.get .root = some (addr (plug C t')) := congrArg some hs.root
  unfold tdelete
  simp only [hroot, hpush1, hpush2, Option.bind_eq_bind, Option.bind_some, hdesc]
  rcases hend with rfl | ⟨x, l, r, rfl, hx⟩
  · -- the key is missing
    left
    refine ⟨fun x hx => hC.not_mem ?_, rfl⟩
    rw [inorder_plug] at hx
    simpa using hx
  · right
    obtain ⟨hst, hctx⟩ := (stored_plug C _).mp ⟨hs.stored, hs.root⟩
    obtain ⟨q, hq, hparent⟩ := Option.bind_eq_some_iff.mp (get_parent hctx)
    obtain ⟨hx0, hnode, hl, -⟩ := hst
    have hlen := height_add_length_le C (node x l r)
    simp only [height] at hlen
    have hparent0 : parentAddr C x ≠ 0 := by
      cases C with
      | nil => exact hx0
      | cons f C => exact hctx.1
    have hpar : ParentOf c key (plug C (node x l r)) (parentAddr C x) := ⟨C, x, l, r, rfl, hx, rfl⟩
    simp only [addr_node, if_neg hx0, hq, Option.bind_some, hparent, Heap.a_eq hnode, kids_false, kids_true]
    cases l with
    | nil =>
      obtain ⟨s1, s', t', hput, hup, hrem⟩ := remove_right hs
      refine ⟨_, s', t', x.2, hparent0, ?_, hpar, hx, hrem⟩
      simp only [addr_nil, ne_eq, not_true_eq_false, if_false]
      rw [slots_eq_cons, List.cons_append]
      simp only [hput, Option.bind_some, hup]
    | node w l1 l2 =>
      -- the last node of the left subtree is freed in place of the one that held the key
      have hpush : push (MAXH arch + 1) (slots C ++ [.root]) (.child x.1 false) =
          some (slots (⟨false, x, r⟩ :: C) ++ [.root]) := by
        refine push_of_lt ?_ _
        rw [List.length_append, length_slots, List.length_singleton]
        omega
      obtain ⟨D, y, m, hright, hplug, hafter⟩ := rightmost_spec (node w l1 l2) (⟨false, x, r⟩ :: C)
        [.root] (MAXH arch + 1) (MAXH arch + 1) hl (by simp)
        (by rw [List.length_append, length_slots, List.length_singleton, List.length_cons]; omega)
        (by omega)
      have hw0 : w.1 ≠ 0 := hl.1
      rw [← hplug] at hs hpar ⊢
      obtain ⟨s1, s2, s', t', hkey, hset, hchild, hput, hup, hrem⟩ := remove_left hs hafter
      refine ⟨_, s', t', x.2, hparent0, ?_, hpar, hx, hrem⟩
      rw [hplug]
      simp only [addr_node, ne_eq, hw0, not_false_eq_true, if_true, hpush] at hright ⊢
      simp only [hright, Option.bind_some, hkey, hset, hchild]
      rw [slots_eq_cons, List.cons_append]
      simp only [hput, Option.bind_some, hup]

end Deletion

/-! ## Sequences of calls -/

/-- What `malloc` returns for a node: the null pointer, or the address of memory within the address
space that no node in use overlaps. -/
def Malloc (arch : Arch) (s : Heap κ) (r : ℕ) : Prop :=
  r = 0 ∨ r + nodeSize arch ≤ 2 ^ arch.bits ∧
    ∀ n, (s.node n).isSome → n + nodeSize arch ≤ r ∨ r + nodeSize arch ≤ n

/-- The key is added to the set. -/
def Comparator.insert (key : κ) (S : Set κ) : Set κ := {x | c.cmp x key = 0 ∨ x ∈ S}

/-- The key is taken from the set. -/
def Comparator.erase (key : κ) (S : Set κ) : Set κ := {x | x ∈ S ∧ c.cmp x key ≠ 0}

/-- The heaps that sequences of calls lead to, with the set of keys each should hold. A call of
`tsearch` that returns the null pointer has inserted nothing. -/
inductive Reachable (arch : Arch) (c : Comparator κ) : Heap κ → Set κ → Prop where
  | empty : Reachable arch c Heap.empty ∅
  | tsearch {s s' : Heap κ} {S : Set κ} {ret : ℕ} (h : Reachable arch c s S) (key : κ) (r : ℕ)
      (hr : Malloc arch s r)
      (hrun : tsearch arch c.cmp key (some .root) r s = some (ret, s')) :
      Reachable arch c s' (if ret = 0 then S else c.insert key S)
  | tdelete {s s' : Heap κ} {S : Set κ} {ret : ℕ} (h : Reachable arch c s S) (key : κ)
      (hrun : tdelete arch c.cmp key (some .root) s = some (ret, s')) :
      Reachable arch c s' (c.erase key S)

/-- The tree a heap holds, the set of its keys, and the place of its nodes in the address space. -/
structure Inv (arch : Arch) (c : Comparator κ) (s : Heap κ) (S : Set κ) (t : BinaryTree (ℕ × κ)) :
    Prop where
  holds : Holds s t
  order : InOrder c t
  keys : ∀ x, x ∈ S ↔ ∃ e ∈ inorder t, c.cmp x e.2 = 0
  live : ∀ n, (s.node n).isSome ↔ n ∈ addrs t
  inside : ∀ n ∈ addrs t, n + nodeSize arch ≤ 2 ^ arch.bits
  separate : ∀ n ∈ addrs t, ∀ m ∈ addrs t, n ≠ m →
    n + nodeSize arch ≤ m ∨ m + nodeSize arch ≤ n

section Runs

variable {c} {arch : Arch} {s : Heap κ} {S : Set κ} {t : BinaryTree (ℕ × κ)}

/-- **A tree that fits in the address space is lower than `MAXH`.** -/
theorem height_lt_MAXH (h : Inv arch c s S t) : t.height < MAXH arch := by
  have hsize : t.numNodes * nodeSize arch ≤ 2 ^ arch.bits := by
    have := length_mul_le_of_separated h.holds.nodup h.separate h.inside
    rwa [addrs, List.length_map, length_inorder] at this
  have hfib := fib_le_numNodes h.holds.balanced
  by_contra hge
  -- a higher tree would have more nodes than there is room for
  have hmono := Nat.fib_mono (Nat.add_le_add_right (not_lt.mp hge) 2)
  have hnum : 2 ^ arch.bits < (Nat.fib (MAXH arch + 2) - 1) * nodeSize arch := by cases arch <;> decide
  have hle : (Nat.fib (MAXH arch + 2) - 1) * nodeSize arch ≤ t.numNodes * nodeSize arch :=
    Nat.mul_le_mul_right _ (by omega)
  exact absurd (hnum.trans_le (hle.trans hsize)) (lt_irrefl _)

theorem Stored.zero_not_mem (h : Stored s t) : 0 ∉ addrs t := by
  induction t with
  | nil => simp
  | node x l r ihl ihr =>
    obtain ⟨hx, -, hl, hr⟩ := h
    rw [mem_addrs_node, not_or, not_or]
    exact ⟨ihl hl, hx.symm, ihr hr⟩

theorem Malloc.not_mem (hr : Malloc arch s r) (h : Inv arch c s S t) : r ∉ addrs t := by
  rcases hr with rfl | ⟨-, hsep⟩
  · exact h.holds.stored.zero_not_mem
  · intro hmem
    have hpos : 0 < nodeSize arch := by cases arch <;> decide
    have := hsep r ((h.live r).mpr hmem)
    omega

/-- A key of the tree, looked up among its values or among the keys alone. -/
theorem exists_key_iff (t : BinaryTree (ℕ × κ)) (x : κ) :
    (∃ e ∈ inorder t, c.cmp x e.2 = 0) ↔ ∃ k ∈ (inorder t).map Prod.snd, c.cmp x k = 0 := by
  constructor
  · rintro ⟨e, he, heq⟩
    exact ⟨e.2, List.mem_map_of_mem he, heq⟩
  · rintro ⟨k, hk, heq⟩
    obtain ⟨e, he, rfl⟩ := List.mem_map.mp hk
    exact ⟨e, he, heq⟩

theorem Inv.not_mem (h : Inv arch c s S t) {key : κ} (hnone : ∀ x ∈ inorder t, c.cmp key x.2 ≠ 0) : key ∉ S := by
  intro hmem
  obtain ⟨e, he, heq⟩ := (h.keys key).mp hmem
  exact hnone e he heq

/-- **One call of `tsearch`.** -/
theorem Inv.tsearch (h : Inv arch c s S t) (hr : Malloc arch s r) (key : κ) :
    ∃ ret s' t', tsearch arch c.cmp key (some .root) r s = some (ret, s') ∧
      Inv arch c s' (if ret = 0 then S else c.insert key S) t' ∧
      (key ∈ S → s' = s ∧ ∃ e ∈ inorder t, c.cmp key e.2 = 0 ∧ ret = e.1) ∧
      (key ∉ S → ret = r) := by
  have hfresh := hr.not_mem h
  rcases tsearch_spec key h.holds h.order (height_lt_MAXH h) hfresh with
    ⟨e, he, heq, hrun⟩ | ⟨hnone, ⟨rfl, hrun⟩ | ⟨hr0, s', t', A, B, hrun, hholds, hAB, hAB', hA, hB, hlive⟩⟩
  · -- the key is there already
    have hmem : key ∈ S := (h.keys key).mpr ⟨e, he, heq⟩
    have he0 : e.1 ≠ 0 := fun hzero =>
      h.holds.stored.zero_not_mem (hzero ▸ List.mem_map_of_mem he)
    refine ⟨e.1, s, t, hrun, ?_, fun _ => ⟨rfl, e, he, heq, rfl⟩, fun hnot => absurd hmem hnot⟩
    rw [if_neg he0]
    refine { h with keys := fun x => ⟨fun hx => ?_, fun hx => Or.inr ((h.keys x).mpr hx)⟩ }
    rcases hx with hx | hx
    · exact ⟨e, he, Comparator.eq_trans hx heq⟩
    · exact (h.keys x).mp hx
  · -- no memory
    exact ⟨0, s, t, hrun, by rw [if_pos rfl]; exact h, fun hmem => absurd hmem (h.not_mem hnone), fun _ => rfl⟩
  · refine ⟨r, s', t', hrun, ?_, fun hmem => absurd hmem (h.not_mem hnone), fun _ => rfl⟩
    rw [if_neg hr0]
    have hmem : ∀ n, n ∈ addrs t' ↔ n = r ∨ n ∈ addrs t := by
      intro n
      rw [addrs, hAB', addrs, hAB]
      simp only [List.map_append, List.map_cons, List.mem_append, List.mem_cons]
      tauto
    obtain ⟨hin, hsep⟩ := hr.resolve_left hr0
    refine ⟨hholds, ?_, fun x => ?_, fun n => ?_, fun n hn => ?_, fun n hn m hm hne => ?_⟩
    · have horder : (A ++ B).Pairwise fun x y => c.cmp x.2 y.2 < 0 := hAB ▸ h.order
      obtain ⟨hpA, hpB, hpAB⟩ := List.pairwise_append.mp horder
      rw [InOrder, hAB', List.pairwise_append, List.pairwise_cons]
      refine ⟨hpA, ⟨fun e he => hB e he, hpB⟩, fun a ha b hb => ?_⟩
      rcases List.mem_cons.mp hb with rfl | hb
      · exact hA a ha
      · exact hpAB a ha b hb
    · have hx := h.keys x
      rw [hAB] at hx
      rw [hAB']
      show c.cmp x key = 0 ∨ x ∈ S ↔ _
      rw [hx]
      simp only [List.mem_append, List.mem_cons, or_and_right, exists_or, exists_eq_left]
      exact or_left_comm
    · rw [hlive, hmem, h.live]
    · rcases (hmem n).mp hn with rfl | hn
      · exact hin
      · exact h.inside n hn
    · rcases (hmem n).mp hn with rfl | hn <;> rcases (hmem m).mp hm with rfl | hm
      · exact absurd rfl hne
      · exact (hsep m ((h.live m).mpr hm)).symm
      · exact hsep n ((h.live n).mpr hn)
      · exact h.separate n hn m hm hne

/-- **One call of `tdelete`.** -/
theorem Inv.tdelete (h : Inv arch c s S t) (key : κ) :
    ∃ ret s' t', tdelete arch c.cmp key (some .root) s = some (ret, s') ∧
      Inv arch c s' (c.erase key S) t' ∧ (ret ≠ 0 ↔ key ∈ S) ∧
      (key ∈ S → ParentOf c key t ret) := by
  rcases tdelete_spec key h.holds h.order (height_lt_MAXH h) with
    ⟨hnone, hrun⟩ | ⟨p, s', t', k, hp0, hrun, hpar, hk, hrem⟩
  · have hnot := h.not_mem hnone
    refine ⟨0, s, t, hrun, ?_, by simp [hnot], fun hmem => absurd hmem hnot⟩
    refine { h with keys := fun x => ⟨fun hx => (h.keys x).mp hx.1, fun hx => ⟨(h.keys x).mpr hx, ?_⟩⟩ }
    intro hxk
    obtain ⟨e, he, heq⟩ := hx
    exact hnone e he (Comparator.eq_trans (Comparator.eq_swap hxk) heq)
  · obtain ⟨A, B, hAB, hAB'⟩ := hrem.keys
    obtain ⟨q, hlive, haddrs⟩ := hrem.live
    have horder : (A ++ k :: B).Pairwise fun x y => c.cmp x y < 0 := by
      rw [← hAB, List.pairwise_map]
      exact h.order
    have hsub : (A ++ B).Sublist (A ++ k :: B) :=
      List.Sublist.append (List.Sublist.refl A) (List.sublist_cons_self k B)
    have hmem : key ∈ S := by
      rw [h.keys, exists_key_iff, hAB]
      exact ⟨k, by simp, hk⟩
    refine ⟨p, s', t', hrun, ⟨hrem.holds, ?_, fun x => ?_, fun n => ?_, fun n hn => ?_,
      fun n hn m hm hne => ?_⟩, by simp [hp0, hmem], fun _ => hpar⟩
    · have horder' : ((inorder t').map Prod.snd).Pairwise fun x y => c.cmp x y < 0 := by
        rw [hAB']
        exact horder.sublist hsub
      exact List.pairwise_map.mp horder'
    · show x ∈ S ∧ c.cmp x key ≠ 0 ↔ _
      rw [h.keys, exists_key_iff, exists_key_iff, hAB, hAB']
      obtain ⟨-, hkB, hA⟩ := List.pairwise_append.mp horder
      have hkB := (List.pairwise_cons.mp hkB).1
      constructor
      · rintro ⟨⟨e, he, heq⟩, hne⟩
        have hek : e ≠ k := by
          rintro rfl
          exact hne (Comparator.eq_trans heq (Comparator.eq_swap hk))
        exact ⟨e, by simpa [hek] using he, heq⟩
      · rintro ⟨e, he, heq⟩
        refine ⟨⟨e, hsub.subset he, heq⟩, fun hxk => ?_⟩
        -- a key equal to the deleted one would stand in the tree twice
        have hek : c.cmp e k = 0 :=
          Comparator.eq_trans (Comparator.eq_swap heq) (Comparator.eq_trans hxk hk)
        rcases List.mem_append.mp he with he | he
        · exact absurd hek (hA e he k List.mem_cons_self).ne
        · exact absurd (Comparator.eq_swap hek) (hkB e he).ne
    · rw [hlive, haddrs, h.live]
    · exact h.inside n ((haddrs n).mp hn).1
    · exact h.separate n ((haddrs n).mp hn).1 m ((haddrs m).mp hm).1 hne

/-- **Whole sequences of calls** keep the invariant. -/
theorem Reachable.inv (h : Reachable arch c s S) : ∃ t, Inv arch c s S t := by
  induction h with
  | empty =>
    refine ⟨nil, ⟨trivial, rfl, by simp, trivial⟩, ?_, ?_, ?_, ?_, ?_⟩ <;>
      simp [InOrder, Heap.empty]
  | tsearch _ key r hr hrun ih =>
    obtain ⟨t, ih⟩ := ih
    obtain ⟨ret, s', t', hrun', hinv, -⟩ := ih.tsearch hr key
    cases hrun.symm.trans hrun'
    exact ⟨t', hinv⟩
  | tdelete _ key hrun ih =>
    obtain ⟨t, ih⟩ := ih
    obtain ⟨ret, s', t', hrun', hinv, -⟩ := ih.tdelete key
    cases hrun.symm.trans hrun'
    exact ⟨t', hinv⟩

/-- **Search trees.** After any sequence of calls the heap stores, with their real heights, the nodes
of a height-balanced search tree, and its keys are those inserted and not deleted since. From there
each function returns: it follows no pointer to nowhere and stores nothing beyond the end of its
array. `tsearch` returns the node that holds the key, or what `malloc` gave it for a new one;
`tdelete` returns the parent of the node that held the key, or that node's address at the root, and
the null pointer exactly if the key was missing. -/
theorem search_tree_correct (h : Reachable arch c s S) :
    ∃ t, Stored s t ∧ s.root = addr t ∧ Balanced t ∧ InOrder c t ∧
      (∀ x, x ∈ S ↔ ∃ e ∈ inorder t, c.cmp x e.2 = 0) ∧
      (∀ key r, Malloc arch s r →
        ∃ ret s', tsearch arch c.cmp key (some .root) r s = some (ret, s') ∧
          (key ∈ S → s' = s ∧ ∃ e ∈ inorder t, c.cmp key e.2 = 0 ∧ ret = e.1) ∧
          (key ∉ S → ret = r)) ∧
      ∀ key, ∃ ret s', tdelete arch c.cmp key (some .root) s = some (ret, s') ∧
        (ret ≠ 0 ↔ key ∈ S) ∧ (key ∈ S → ParentOf c key t ret) := by
  obtain ⟨t, hinv⟩ := h.inv
  refine ⟨t, hinv.holds.stored, hinv.holds.root, hinv.holds.balanced, hinv.order, hinv.keys,
    fun key r hr => ?_, fun key => ?_⟩
  · obtain ⟨ret, s', t', hrun, -, hfound, hnew⟩ := hinv.tsearch hr key
    exact ⟨ret, s', hrun, hfound, hnew⟩
  · obtain ⟨ret, s', t', hrun, -, hret, hpar⟩ := hinv.tdelete key
    exact ⟨ret, s', hrun, hret, hpar⟩

end Runs

/-- Integers in their usual order. -/
def intComparator : Comparator ℤ where
  cmp x y := x - y
  cmp_self := sub_self
  cmp_swap x y := by omega
  cmp_trans x y z := by omega

/-- A tree of two nodes. -/
theorem search_tree_correct_two_nodes :
    ∃ (s : Heap ℤ) (t : BinaryTree (ℕ × ℤ)), Stored s t ∧ s.root = 16 ∧ Balanced t ∧
      ∃ e ∈ inorder t, intComparator.cmp 7 e.2 = 0 := by
  have h1 : Reachable .i386 intComparator _ _ :=
    Reachable.empty.tsearch 5 16 (Or.inr ⟨by decide, by simp [Heap.empty]⟩) rfl
  have h2 : Reachable .i386 intComparator _ _ := h1.tsearch 7 32
    (Or.inr ⟨by decide, fun n hn => ?_⟩) rfl
  · obtain ⟨t, hst, hroot, hbal, -, hkeys, -⟩ := search_tree_correct h2
    exact ⟨_, t, hst, rfl, hbal, (hkeys 7).mp (Or.inl rfl)⟩
  · -- the only node there is stands at 16
    by_cases h16 : n = 16
    · exact Or.inl (by subst h16; decide)
    · exact absurd hn (by simp [Heap.empty, Heap.write, h16])

/-! ## Destruction -/

variable {c} {arch : Arch} {s : Heap κ} {S : Set κ} {t : BinaryTree (ℕ × κ)} {fuel : ℕ}

/-- `tdestroy`: the keys for which `freekey` is called, and the heap left. -/
def tdestroy : ℕ → ℕ → Heap κ → Option (List κ × Heap κ)
  | _, 0, s => some ([], s)
  | 0, _, _ => none
  | fuel + 1, r, s => do
    let (left, s) ← tdestroy fuel (← s.a r false) s
    let (right, s) ← tdestroy fuel (← s.a r true) s
    some (left ++ right ++ [← s.key r], s.free r)

theorem tdestroy_spec (h : Stored s t) (hnd : (addrs t).Nodup) (hfuel : t.height ≤ fuel) :
    ∃ ks s', tdestroy fuel (addr t) s = some (ks, s') ∧ ks.Perm ((inorder t).map Prod.snd) ∧
      ∀ n, s'.node n = if n ∈ addrs t then none else s.node n := by
  induction t generalizing fuel s with
  | nil => exact ⟨[], s, by cases fuel <;> rfl, List.Perm.refl _, fun n => rfl⟩
  | node x l r ihl ihr =>
    obtain ⟨hne, hx, hl, hr⟩ := h
    obtain ⟨hxr, hxl, hndr, hndl, hdisj⟩ := nodup_addrs_fill (f := ⟨true, x, l⟩).mp hnd
    simp only [height] at hfuel
    obtain ⟨fuel, rfl⟩ := Nat.exists_eq_add_one_of_ne_zero (show fuel ≠ 0 by omega)
    obtain ⟨ls, s1, hrun1, hperm1, hnode1⟩ := ihl hl hndl (show l.height ≤ fuel by omega)
    -- the right subtree is as it was
    have hr1 : Stored s1 r := hr.congr fun n hn => by rw [hnode1, if_neg (hdisj n hn)]
    obtain ⟨rs, s2, hrun2, hperm2, hnode2⟩ := ihr hr1 hndr (show r.height ≤ fuel by omega)
    refine ⟨ls ++ rs ++ [x.2], s2.free x.1, ?_, ?_, fun n => ?_⟩
    · rw [addr_node, tdestroy]
      · simp [Heap.a, Heap.key, hx, hrun1, hnode1, hxl, hrun2, hnode2, hxr]
      · exact hne
    · rw [inorder, List.map_append, List.map_cons, List.append_assoc]
      exact hperm1.append ((List.perm_append_singleton _ _).trans (hperm2.cons _))
    · simp only [Heap.free, Function.update_apply, hnode2, hnode1, mem_addrs_node]
      grind

/-- **`tdestroy`**, after any sequence of calls, frees every node, and calls `freekey` once for each key. -/
theorem tdestroy_frees (h : Reachable arch c s S) :
    ∃ ks s', tdestroy (MAXH arch) s.root s = some (ks, s') ∧ (∀ n, s'.node n = none) ∧
      ks.Pairwise (fun x y => c.cmp x y ≠ 0) ∧ ∀ x, x ∈ S ↔ ∃ k ∈ ks, c.cmp x k = 0 := by
  obtain ⟨t, hinv⟩ := h.inv
  obtain ⟨ks, s', hrun, hperm, hnode⟩ := tdestroy_spec hinv.holds.stored hinv.holds.nodup (height_lt_MAXH hinv).le
  rw [← hinv.holds.root] at hrun
  refine ⟨ks, s', hrun, fun n => ?_, ?_, fun x => ?_⟩
  · have hlive := Option.isSome_iff_ne_none.symm.trans (hinv.live n)
    grind
  · rw [hperm.pairwise_iff fun hxy hyx => hxy (Comparator.eq_swap hyx), List.pairwise_map]
    exact hinv.order.imp fun hlt => hlt.ne
  · rw [hinv.keys, exists_key_iff]
    simp only [hperm.mem_iff]

/-- A tree of one node. -/
theorem tdestroy_frees_one : ∃ (s s' : Heap ℤ) (ks : List ℤ), s.root = 16 ∧
    tdestroy (MAXH .i386) 16 s = some (ks, s') ∧ (∀ n, s'.node n = none) ∧ ∃ k ∈ ks, intComparator.cmp 5 k = 0 := by
  have h : Reachable .i386 intComparator _ _ :=
    Reachable.empty.tsearch 5 16 (Or.inr ⟨by decide, by simp [Heap.empty]⟩) rfl
  obtain ⟨ks, s', hrun, hnode, -, hkeys⟩ := tdestroy_frees h
  exact ⟨_, s', ks, rfl, hrun, hnode, (hkeys 5).mp (Or.inl rfl)⟩

end Leblibc.Tsearch

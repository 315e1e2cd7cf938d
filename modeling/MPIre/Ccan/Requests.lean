import MPIre.Ccan.HtableRun
import MPIre.Table
/-
# The request table over the vendored hash table

`add_request`, `get_request` and `del_request` (src/mpire/mpire.h:54-93) with the hash table
they call: the table holds the addresses of the entries, which `malloc` gave and nothing
frees, and a hash of an entry is computed from the entry it points to.

`Stands` relates such a table to a bag of `(hash, entry)` pairs. `Stands.get`, `Stands.add`
and `Stands.del` say that the operations do what those of the bag do, for every hash function,
as long as there is memory and the addresses `malloc` gives do not go down in the top bit.
-/
namespace MPIre

/-- The memory of a process. -/
structure Allocator where
  /-- What `calloc` answers while the n-th entry is added. -/
  calloc : Nat → Ccan.Calloc
  /-- How many entries `malloc` has room for; none is freed. -/
  blocks : Nat
  /-- The address of the n-th entry. -/
  malloc : Nat → Ccan.Word
  malloc_inj : ∀ {m n}, m < blocks → n < blocks → malloc m = malloc n → m = n
  one_lt : ∀ {n}, n < blocks → 1 < malloc n

/-- The addresses of later entries are not lower in the top bit. -/
def Allocator.Rises (A : Allocator) : Prop :=
  ∀ m n, m ≤ n → n < A.blocks → Ccan.topBit (A.malloc m) 63 ≤ Ccan.topBit (A.malloc n) 63

/-- Four entries next to each other, and memory for every table. -/
def Allocator.small : Allocator where
  calloc _ := Ccan.Htable.plenty
  blocks := 4
  malloc n := BitVec.ofNat 64 (0x10000 + 16 * n)
  malloc_inj {m n} hm hn h := by
    have hmod := congrArg BitVec.toNat h
    simp only [BitVec.toNat_ofNat] at hmod
    omega
  one_lt {n} hn := by
    show 1 < (BitVec.ofNat 64 (0x10000 + 16 * n)).toNat
    rw [BitVec.toNat_ofNat]
    omega

/-- The same without memory for any table. -/
def Allocator.exhausted : Allocator :=
  { Allocator.small with calloc := fun _ => ⟨fun _ => false, fun _ _ => rfl⟩ }

theorem Allocator.small_rises : Allocator.small.Rises := by
  have hall : ∀ n < 4, ∀ m < 4, Ccan.topBit (Allocator.small.malloc m) 63 ≤
      Ccan.topBit (Allocator.small.malloc n) 63 := by decide
  exact fun m n hmn hn => hall n hn m (Nat.lt_of_le_of_lt hmn hn)

namespace Linked
open Ccan (Word)
open Run

structure Requests where
  requestHtab : Ccan.Htable
  /-- The entries, at their addresses. -/
  heap : Word → Request
  mallocs : Nat

/-- `hash_pointer(request, 0)`, a `uint32_t` in a `size_t`. -/
def hashKey (hash : Addr → UInt32) (request : Addr) : Word := (hash request).toBitVec.setWidth 64

def rehash (hash : Addr → UInt32) (heap : Word → Request) (e : Word) : Word :=
  hashKey hash (heap e).request

/-- The entry is not yet in the table. -/
def newEntry (A : Allocator) (t : Requests) (e : Request) : Requests :=
  { t with heap := Function.update t.heap (A.malloc t.mallocs) e, mallocs := t.mallocs + 1 }

def getRequest (hash : Addr → UInt32) (t : Requests) (request : Addr) : Option (Option Word) :=
  t.requestHtab.htableGet (hashKey hash request) fun e => streq (t.heap e) request

/-- What `malloc` and `htable_add` return is not looked at. -/
def addRequest (A : Allocator) (hash : Addr → UInt32) (t : Requests) (newBuffer : Buf)
    (newRequest : Addr) : Option Requests := do
  match ← getRequest hash t newRequest with
  | some _ => none
  | none =>
    if A.blocks ≤ t.mallocs then none
    else
      let t' := newEntry A t (newBuffer.toRequest newRequest)
      let (htab, _) ← t'.requestHtab.htableAdd (A.calloc t.mallocs) (rehash hash t'.heap)
        (hashKey hash newRequest) (A.malloc t.mallocs)
      pure { t' with requestHtab := htab }

def delRequest (t : Requests) (hash ptr : Word) : Option Requests := do
  let (htab, res) ← t.requestHtab.htableDel hash ptr
  if res then pure { t with requestHtab := htab } else none

/-- One turn of a wait. -/
def settle {σ : Type} (hash : Addr → UInt32) (move : σ → Buf → Option σ) (key request : Addr)
    (x : σ × Requests) : Option (σ × Requests) := do
  match ← getRequest hash x.2 key with
  | none => pure x
  | some e =>
    let s ← move x.1 (x.2.heap e).toBuf
    let t ← delRequest x.2 (hashKey hash request) e
    pure (s, t)

def settleAll {σ : Type} (hash : Addr → UInt32) (move : σ → Buf → Option σ)
    (requests : List Addr) (x : σ × Requests) : Option (σ × Requests) :=
  requests.foldlM (fun x a => settle hash move a a x) x

/-- `htable_init` and `htable_clear`. -/
def Requests.cleared (t : Requests) : Requests := { t with requestHtab := .init }

/-- The table has room for one more entry, or memory to make it. -/
def Requests.CanGrow (A : Allocator) (t : Requests) : Prop :=
  t.requestHtab.elems + 1 ≤ t.requestHtab.max ∨ (A.calloc t.mallocs).gives (t.requestHtab.bits + 1) = true

instance (A : Allocator) (t : Requests) : Decidable (t.CanGrow A) :=
  inferInstanceAs (Decidable (_ ∨ _))

/-- The table holds the addresses `ps` of the entries of the bag. -/
structure Stands (A : Allocator) (hash : Addr → UInt32) (ps : Multiset Word) (t : Requests)
    (ht : Htable) : Prop where
  represents : t.requestHtab.Represents (rehash hash t.heap) ps
  entries : ht = ps.map fun p => (hash (t.heap p).request, t.heap p)
  sound : ht.Sound hash
  known : ∀ p ∈ ps, ∃ n < t.mallocs, n < A.blocks ∧ A.malloc n = p
  masks : t.requestHtab.Unset ∨
    ∃ k, t.requestHtab.Shown k ∧
      ∀ n, t.mallocs ≤ n → n < A.blocks → k ≤ Ccan.topBit (A.malloc n) 63

variable {A : Allocator} {hash : Addr → UInt32} {ps : Multiset Word} {t : Requests} {ht : Htable}

theorem stands_init (heap : Word → Request) (n : Nat) :
    Stands A hash 0 ⟨.init, heap, n⟩ [] where
  represents := Ccan.Htable.represents_init _
  entries := rfl
  sound := Htable.sound_nil
  known p hp := absurd hp (Multiset.notMem_zero p)
  masks := .inl ⟨rfl, rfl⟩

theorem Stands.mem_iff (h : Stands A hash ps t ht) {x : UInt32 × Request} :
    x ∈ ht ↔ ∃ p ∈ ps, (hash (t.heap p).request, t.heap p) = x := by
  rw [← Multiset.mem_coe, h.entries, Multiset.mem_map]

/-- The new entry does not lie where an entry of the table lies. -/
theorem Stands.heap_newEntry (h : Stands A hash ps t ht) (hblock : t.mallocs < A.blocks)
    {q : Word} (hq : q ∈ ps) (e : Request) : (newEntry A t e).heap q = t.heap q := by
  refine Function.update_of_ne ?_ _ _
  rintro rfl
  obtain ⟨n, hn, hlt, heq⟩ := h.known _ hq
  exact absurd (A.malloc_inj hlt hblock heq) (Nat.ne_of_lt hn)

/-- **`get_request`** finds the address of the entry the bag has. -/
theorem Stands.get (h : Stands A hash ps t ht) (a : Addr) :
    ∃ r, getRequest hash t a = some r ∧ r.map t.heap = MPIre.getRequest hash ht a ∧
      ∀ p, r = some p → p ∈ ps ∧ (t.heap p).request = a := by
  obtain ⟨r, hr, hfound, hmiss⟩ :=
    h.represents.get (hashKey hash a) fun e => streq (t.heap e) a
  refine ⟨r, hr, ?_, fun p hp => ?_⟩
  · cases r with
    | none =>
      refine ((HashBag.lookup_eq_none_iff h.sound).2 fun x hx hxa => ?_).symm
      obtain ⟨p, hp, rfl⟩ := h.mem_iff.1 hx
      subst hxa
      exact hmiss p hp rfl (beq_self_eq_true _) rfl
    | some p =>
      obtain ⟨hp, hcmp⟩ := hfound p rfl
      have ha : (t.heap p).request = a := eq_of_beq hcmp
      refine ((HashBag.lookup_eq_some_iff h.sound).2 ⟨h.mem_iff.2 ⟨p, hp, ?_⟩, ha⟩).symm
      rw [ha]
  · obtain ⟨hp, hcmp⟩ := hfound p hp
    exact ⟨hp, eq_of_beq hcmp⟩

/-- **`del_request`** of what `get_request` found. -/
theorem Stands.del (h : Stands A hash ps t ht) {p : Word} (hp : p ∈ ps) {a : Addr}
    (ha : (t.heap p).request = a) :
    ∃ t' ht', delRequest t (hashKey hash a) p = some t' ∧
      MPIre.delRequest ht (hash a) (t.heap p) = some ht' ∧ Stands A hash (ps.erase p) t' ht' := by
  subst ha
  have hmem : (hash (t.heap p).request, t.heap p) ∈ ht := h.mem_iff.2 ⟨p, hp, rfl⟩
  obtain ⟨c, hdel, hrep, hmask, hbits, -⟩ := h.represents.del p
  rw [decide_eq_true hp] at hdel
  refine ⟨{ t with requestHtab := c }, ht.erase _, ?_, if_pos hmem, hrep, ?_, h.sound.erase _,
    fun q hq => h.known q (Multiset.mem_of_mem_erase hq), ?_⟩
  · exact congrArg (Option.bind · _) hdel
  · have hcons := Multiset.coe_eq_coe.2 (List.perm_cons_erase hmem)
    rw [h.entries, ← Multiset.cons_coe] at hcons
    nth_rewrite 1 [← Multiset.cons_erase hp] at hcons
    rw [Multiset.map_cons] at hcons
    exact (Multiset.cons_inj_right _).1 hcons.symm
  · exact h.masks.imp (fun hu => ⟨hmask.trans hu.1, hbits.trans hu.2⟩) fun ⟨k, hk, hle⟩ =>
      ⟨k, ⟨hmask ▸ hk.bit, hbits ▸ hk.above⟩, hle⟩

/-- **`add_request`** of a variable the bag does not know. -/
theorem Stands.add (hA : A.Rises) (h : Stands A hash ps t ht) (hblock : t.mallocs < A.blocks)
    (hgrow : t.CanGrow A) {b : Buf} {a : Addr} (hno : MPIre.getRequest hash ht a = none) :
    ∃ t', addRequest A hash t b a = some t' ∧
      Stands A hash (A.malloc t.mallocs ::ₘ ps) t' (ht.posted hash b a) := by
  have hheap : ∀ q ∈ ps, (newEntry A t (b.toRequest a)).heap q = t.heap q := fun q hq =>
    h.heap_newEntry hblock hq _
  have hself : (newEntry A t (b.toRequest a)).heap (A.malloc t.mallocs) = b.toRequest a :=
    Function.update_self _ _ _
  have hkey : rehash hash (newEntry A t (b.toRequest a)).heap (A.malloc t.mallocs) =
      hashKey hash a := by
    unfold rehash
    rw [hself]
    rfl
  have hrep : t.requestHtab.Represents (rehash hash (newEntry A t (b.toRequest a)).heap) ps :=
    h.represents.congr fun q hq => by
      unfold rehash
      rw [hheap q hq]
  obtain ⟨k, hk, hshown⟩ := Ccan.Htable.shown_adopt (A.one_lt hblock)
    (h.masks.imp_right fun ⟨k, hk, hle⟩ => ⟨k, hle _ (Nat.le_refl _) hblock, hk⟩)
  obtain ⟨htab, c, hadd, hrep', hkeeps, u, hu⟩ := hrep.add hgrow
    (Ccan.Htable.reveals_of_shown (A.one_lt hblock) hk hshown)
  obtain ⟨hmask, hbits⟩ := hkeeps.adopt (A.malloc t.mallocs)
  have hshown' : htab.Shown k := by
    rw [hu]
    exact ⟨hmask ▸ hshown.bit, hbits ▸ hshown.above⟩
  refine ⟨{ newEntry A t (b.toRequest a) with requestHtab := htab }, ?_, hrep', ?_, ?_,
    fun q hq => ?_, .inr ⟨k, hshown', fun n hn hlt => ?_⟩⟩
  · obtain ⟨r, hr, hmap, -⟩ := h.get a
    rw [hno, Option.map_eq_none_iff] at hmap
    subst hmap
    unfold addRequest
    rw [hr]
    show (if A.blocks ≤ t.mallocs then none else (t.requestHtab.htableAdd (A.calloc t.mallocs) _
      (hashKey hash a) (A.malloc t.mallocs)).bind _) = _
    rw [if_neg (Nat.not_le.2 hblock), ← hkey, hadd]
    rfl
  · show (_ :: ht : Multiset (UInt32 × Request)) = Multiset.map _ (A.malloc t.mallocs ::ₘ ps)
    rw [Multiset.map_cons, ← Multiset.cons_coe, h.entries]
    congr 1
    · show _ = (hash ((newEntry A t (b.toRequest a)).heap _).request, _)
      rw [hself]
      rfl
    · refine Multiset.map_congr rfl fun q hq => ?_
      show _ = (hash ((newEntry A t (b.toRequest a)).heap q).request, _)
      rw [hheap q hq]
  · exact h.sound.posted (view_eq_none_iff.2 hno)
  · rcases Multiset.mem_cons.1 hq with rfl | hq
    · exact ⟨t.mallocs, Nat.lt_succ_self _, hblock, rfl⟩
    · obtain ⟨n, hn, hlt, heq⟩ := h.known q hq
      exact ⟨n, Nat.lt_succ_of_lt hn, hlt, heq⟩
  · exact Nat.le_trans hk (hA _ n (Nat.le_of_succ_le hn) hlt)

/-- Both tables exit on a variable that is registered. -/
theorem Stands.addRequest_rel (hA : A.Rises) (h : Stands A hash ps t ht)
    (hblock : t.mallocs < A.blocks) (hgrow : t.CanGrow A) (b : Buf) (a : Addr) :
    Option.Rel (fun t ht => ∃ ps, Stands A hash ps t ht) (addRequest A hash t b a)
      (MPIre.addRequest hash ht b a) := by
  cases hget : MPIre.getRequest hash ht a with
  | none =>
    obtain ⟨t', hadd, hs'⟩ := h.add hA hblock hgrow (b := b) hget
    rw [hadd, addRequest_eq_some (view_eq_none_iff.2 hget)]
    exact .some ⟨_, hs'⟩
  | some e =>
    obtain ⟨q, hq, hmap, -⟩ := h.get a
    rw [hget] at hmap
    obtain ⟨p, rfl, -⟩ := Option.map_eq_some_iff.1 hmap
    have hnone : addRequest A hash t b a = none := by
      unfold addRequest
      rw [hq]
      rfl
    have hnone' : MPIre.addRequest hash ht b a = none :=
      addRequest_eq_none_iff.2 fun hv => by
        rw [view_eq_none_iff, hget] at hv
        cases hv
    rw [hnone, hnone']
    exact .none

/-- A table that cannot grow: `add_request` returns, and the table has not changed. -/
theorem Stands.add_full (h : Stands A hash ps t ht) (hblock : t.mallocs < A.blocks)
    (hgrow : ¬ t.CanGrow A) (b : Buf) {a : Addr} (hno : getRequest hash t a = some none) :
    addRequest A hash t b a = some (newEntry A t (b.toRequest a)) ∧
      getRequest hash (newEntry A t (b.toRequest a)) a = some none := by
  obtain ⟨hmax, hgives⟩ := not_or.1 hgrow
  refine ⟨?_, ?_⟩
  · have hadd : t.requestHtab.htableAdd (A.calloc t.mallocs)
        (rehash hash (newEntry A t (b.toRequest a)).heap) (hashKey hash a) (A.malloc t.mallocs) =
          some (t.requestHtab, false) :=
      Ccan.Htable.htableAdd_full (Nat.not_le.1 hmax) (Bool.eq_false_iff.2 hgives)
    unfold addRequest
    rw [hno]
    show (if A.blocks ≤ t.mallocs then none else (t.requestHtab.htableAdd (A.calloc t.mallocs) _
      (hashKey hash a) (A.malloc t.mallocs)).bind _) = _
    rw [if_neg (Nat.not_le.2 hblock), hadd]
    rfl
  · obtain ⟨r, hr, hfound, -⟩ := h.represents.get (hashKey hash a)
      fun e => streq ((newEntry A t (b.toRequest a)).heap e) a
    obtain ⟨r₀, hr₀, -, hmiss⟩ := h.represents.get (hashKey hash a) fun e => streq (t.heap e) a
    rw [show t.requestHtab.htableGet (hashKey hash a) (fun e => streq (t.heap e) a) = some none
      from hno] at hr₀
    cases hr₀
    refine hr.trans (congrArg some (Option.eq_none_iff_forall_ne_some.2 fun p hp => ?_))
    obtain ⟨hmem, hcmp⟩ := hfound p hp
    rw [h.heap_newEntry hblock hmem] at hcmp
    refine hmiss p hmem ?_ hcmp rfl
    unfold rehash
    rw [eq_of_beq hcmp]

/-! ## The waits -/

section waits

variable {σ τ : Type} {move₁ : σ → Buf → Option σ} {move₂ : τ → Buf → Option τ}
  {R : σ → τ → Prop}
  (hmove : ∀ s u b, R s u → Option.Rel R (move₁ s b) (move₂ u b))
include hmove

/-- A turn of a wait is that of a wait over the bag. -/
theorem settle_rel {x : σ × Requests} {y : τ × Htable}
    (h : R x.1 y.1 ∧ ∃ ps, Stands A hash ps x.2 y.2) (a : Addr) :
    Option.Rel (fun x y => R x.1 y.1 ∧ ∃ ps, Stands A hash ps x.2 y.2)
      (settle hash move₁ a a x) (MPIre.settle hash move₂ a a y) := by
  obtain ⟨hR, ps, hs⟩ := h
  obtain ⟨r, hr, hmap, hfound⟩ := hs.get a
  unfold settle MPIre.settle
  rw [hr, ← hmap]
  cases r with
  | none => exact .some ⟨hR, ps, hs⟩
  | some p =>
    obtain ⟨hp, ha⟩ := hfound p rfl
    obtain ⟨t', ht', hdel, hdel', hs'⟩ := hs.del hp ha
    show Option.Rel _ ((move₁ x.1 (x.2.heap p).toBuf).bind _) ((move₂ y.1 _).bind _)
    refine rel_bind (hmove _ _ _ hR) fun s u hsu => ?_
    rw [hdel, hdel']
    exact .some ⟨hsu, _, hs'⟩

theorem settleAll_rel {x : σ × Requests} {y : τ × Htable}
    (h : R x.1 y.1 ∧ ∃ ps, Stands A hash ps x.2 y.2) (as : List Addr) :
    Option.Rel (fun x y => R x.1 y.1 ∧ ∃ ps, Stands A hash ps x.2 y.2)
      (settleAll hash move₁ as x) (MPIre.settleAll hash move₂ as y) :=
  run_rel (p := fun _ => True) (fun _ _ a hx _ => settle_rel hmove hx a) h fun _ _ => trivial

end waits

/-- Turns that find nothing change nothing. -/
theorem settles_miss {σ : Type} {move : σ → Buf → Option σ} {key : Addr → Addr}
    {x : σ × Requests} :
    ∀ as : List Addr, (∀ a ∈ as, getRequest hash x.2 (key a) = some none) →
      as.foldlM (fun x a => settle hash move (key a) a x) x = some x
  | [], _ => rfl
  | a :: as, h => by
    have hturn : settle hash move (key a) a x = some x := by
      unfold settle
      rw [h a (by simp)]
      rfl
    rw [List.foldlM_cons, hturn]
    exact settles_miss as fun a ha => h a (List.mem_cons_of_mem _ ha)

end Linked

end MPIre

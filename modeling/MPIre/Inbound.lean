import Mathlib.Algebra.Order.BigOperators.Group.List
import Mathlib.Tactic.Ring
import MPIre.Mpi
/-
# What a call brings in

The abstract side of both libraries, in terms of the application and MPI only: no
table and no log. `inbound` is the list of results a call delivers to the
process, each as the bytes it fills; `effect` is what the call does to the
application when the hooks leave it alone. A log is right when it is the list of
these results in order, so the libraries are compared with `inbound`, not with
each other's code.

`dumped` is what the hooks choose to dump or load for the same call. It is
`inbound` (`dumped_cells`) where the table knows what is pending (`Agrees`), the
element total is an `int` (`Call.Fits`) and the blocks are packed (`Call.Packed`).
-/
namespace MPIre
open Gather

/-- The receive a wait on variable `a` would complete. -/
def App.awaitsVar (W : World) (p : App) (l : Lang) (a : Addr) : Option Buf :=
  p.awaits (W.decode l (p.reqs a))

/-- The results a call delivers to this process, in the order of the log. -/
def inbound (W : World) (p : App) : Call → List (List Addr)
  | .recv _ b _ => [b.cells]
  | .wait l a => ((p.awaitsVar W l a).toList).map Buf.cells
  | .waitall l count array => ((slots l array count).filterMap (p.awaitsVar W l)).map Buf.cells
  | .bcast _ b root comm => if W.rank comm ≠ root then [b.cells] else []
  | .alltoall _ b comm => [{ b with count := b.count * W.size comm }.cells]
  | .alltoallv _ recvbuf rc rd t comm =>
    [(blocks recvbuf rc rd t (W.size comm)).flatMap Buf.cells]
  | .allreduce _ b _ => [b.cells]
  | .reduce _ b root comm => if W.rank comm = root then [b.cells] else []
  | _ => []

/-- The buffers the hooks dump or load for a call of the captured rank, when their
table has `view a` for variable `a`. -/
def dumped (W : World) (view : Addr → Option Buf) : Call → List Buf
  | .recv _ b _ => [b]
  | .wait _ a => (view a).toList
  | .waitall l count array => (slots l array count).filterMap view
  | .bcast _ b root comm => if W.rank comm ≠ root then [b] else []
  | .alltoall _ b comm => [{ b with count := cInt (b.count * W.size comm) }]
  | .alltoallv _ recvbuf rc _ t comm => [⟨recvbuf, totalRecvcounts rc (W.size comm), t⟩]
  | .allreduce _ b _ => [b]
  | .reduce _ b root comm => if W.rank comm = root then [b] else []
  | _ => []

/-- The application after a call: a C wait stores `MPI_REQUEST_NULL` into its
variables, a Fortran wait of the capture library does not. -/
def effect (W : World) (p : App) : Call → App
  | .init _ | .finalize _ | .send _ | .barrier _ => p.tick W
  | .isend l a => pmpiPostVar W p l a none
  | .irecv l b _ a => pmpiPostVar W p l a (some b)
  | .wait .c a =>
    let r := pmpiWait W p (p.reqs a)
    r.1.setReq a r.2
  | .wait .fortran a => (pmpiWait W p (W.requestF2c (p.reqs a))).1
  | .waitall .c count array =>
    let as := slots .c array count
    let r := pmpiWaitall W p (as.map p.reqs)
    r.1.setReqs W .c as r.2
  | .waitall .fortran count array =>
    (pmpiWaitall W p ((slots .fortran array count).map fun a => W.requestF2c (p.reqs a))).1
  | .recv _ b _ | .allreduce _ b _ => pmpiReceive W p b.cells
  | .bcast _ b root comm => pmpiReceive W p (if W.rank comm ≠ root then b.cells else [])
  | .alltoall _ b comm => pmpiReceive W p { b with count := b.count * W.size comm }.cells
  | .alltoallv _ recvbuf rc rd t comm =>
    pmpiReceive W p ((blocks recvbuf rc rd t (W.size comm)).flatMap Buf.cells)
  | .reduce _ b root comm => pmpiReceive W p (if W.rank comm = root then b.cells else [])

/-! ## Completions -/

@[simp] theorem complete_reqs (W : World) (p : App) (h : Handle) :
    (complete W p h).reqs = p.reqs := rfl

theorem lookup_complete (W : World) (p : App) (h k : Handle) :
    (complete W p h).ops.lookup k = if k = h then none else p.ops.lookup k := by
  unfold complete
  by_cases hk : k = h
  · subst hk; simp
  · simp [hk, AList.lookup_erase_ne hk]

theorem lookup_completeAll (W : World) (hs : List Handle) (p : App) (k : Handle) :
    (hs.foldl (complete W) p).ops.lookup k = if k ∈ hs then none else p.ops.lookup k := by
  induction hs generalizing p with
  | nil => simp
  | cons h hs ih =>
    rw [List.foldl_cons, ih, lookup_complete]
    by_cases hk : k ∈ hs <;> by_cases hkh : k = h <;> simp [hk, hkh]

theorem reqs_completeAll (W : World) (hs : List Handle) (p : App) :
    (hs.foldl (complete W) p).reqs = p.reqs := by
  induction hs generalizing p with
  | nil => rfl
  | cons h hs ih => rw [List.foldl_cons, ih, complete_reqs]

theorem setReq_self {p : App} {a : Addr} {x : Int} (h : x = p.reqs a) : p.setReq a x = p := by
  subst h
  unfold App.setReq
  rw [Function.update_eq_self]

theorem setReqs_self {W : World} {l : Lang} {p : App} {as : List Addr} {hs : List Handle}
    (h : hs.map (W.encode l) = gather p.reqs as) : p.setReqs W l as hs = p := by
  have hs' := scatter_gather p.reqs [] as p.reqs
  rw [List.append_nil, overlay_eq fun _ _ => rfl] at hs'
  unfold App.setReqs
  rw [h, hs']

theorem reqs_wait (W : World) (p : App) (h : Handle) : (pmpiWait W p h).1.reqs = p.reqs := by
  unfold pmpiWait
  split <;> rfl

theorem reqs_waitall (W : World) (p : App) (hs : List Handle) :
    (pmpiWaitall W p hs).1.reqs = p.reqs := by
  unfold pmpiWaitall
  split
  · exact reqs_completeAll W hs p
  · rfl

/-- A completion only writes the buffer of its own receive. -/
theorem mem_complete {W : World} {p : App} {h : Handle} {a : Addr}
    (ha : ∀ b, p.awaits h = some b → a ∉ b.cells) : (complete W p h).mem a = p.mem a := by
  unfold complete
  apply deliver_not_mem
  cases hb : p.awaits h with
  | none => simp [Buf.cellsOf]
  | some b => simpa [Buf.cellsOf] using ha b hb

theorem mem_completeAll {W : World} {a : Addr} :
    ∀ (hs : List Handle) (p : App), (∀ h ∈ hs, ∀ b, p.awaits h = some b → a ∉ b.cells) →
      (hs.foldl (complete W) p).mem a = p.mem a
  | [], p, _ => rfl
  | h :: hs, p, ha => by
    have hstep : (complete W p h).mem a = p.mem a := mem_complete (ha h (by simp))
    rw [List.foldl_cons, mem_completeAll hs, hstep]
    intro k hk b hb
    -- a handle still pending after the first completion was pending before it
    refine ha k (by simp [hk]) b ?_
    unfold App.awaits at hb ⊢
    rw [lookup_complete] at hb
    by_cases hkh : k = h <;> simp_all

/-! ## A call only writes what it brings in -/

theorem mem_receive {W : World} {p : App} {ps : List Addr} {a : Addr} (h : a ∉ ps) :
    (pmpiReceive W p ps).mem a = p.mem a := deliver_not_mem h

theorem mem_waitOne {W : World} {p : App} {h : Handle} {a : Addr}
    (ha : ∀ b, p.awaits h = some b → a ∉ b.cells) : (pmpiWait W p h).1.mem a = p.mem a := by
  unfold pmpiWait
  split
  · exact mem_complete ha
  · rfl

theorem mem_waitAll {W : World} {p : App} {hs : List Handle} {a : Addr}
    (ha : ∀ h ∈ hs, ∀ b, p.awaits h = some b → a ∉ b.cells) :
    (pmpiWaitall W p hs).1.mem a = p.mem a := by
  unfold pmpiWaitall
  split
  · exact mem_completeAll hs p ha
  · rfl

theorem mem_post (W : World) (p : App) (l : Lang) (r : Addr) (recv : Option Buf) :
    (pmpiPostVar W p l r recv).mem = p.mem := by
  unfold pmpiPostVar pmpiPost
  split <;> rfl

/-- The frame of every call: bytes outside `inbound` keep their values. -/
theorem effect_mem {W : World} {p : App} {c : Call} {a : Addr}
    (h : a ∉ (inbound W p c).flatten) : (effect W p c).mem a = p.mem a := by
  cases c with
  | init l | finalize l | send l | barrier l => rfl
  | isend l r => exact congrFun (mem_post W p l r none) a
  | irecv l b comm r => exact congrFun (mem_post W p l r (some b)) a
  | recv l b comm | allreduce l b comm => exact mem_receive (by simpa [inbound] using h)
  | alltoall l b comm => exact mem_receive (by simpa [inbound] using h)
  | alltoallv l recvbuf rc rd t comm => exact mem_receive (by simpa [inbound] using h)
  | bcast l b root comm =>
    refine mem_receive ?_
    by_cases hr : W.rank comm = root
    · simp [hr]
    · simpa [inbound, hr] using h
  | reduce l b root comm =>
    refine mem_receive ?_
    by_cases hr : W.rank comm = root
    · simpa [inbound, hr] using h
    · simp [hr]
  | wait l r =>
    have ha : ∀ b, p.awaits (W.decode l (p.reqs r)) = some b → a ∉ b.cells := by
      intro b hb
      simpa [inbound, App.awaitsVar, hb] using h
    cases l with
    | c => exact mem_waitOne ha
    | fortran => exact mem_waitOne ha
  | waitall l count array =>
    have ha : ∀ k ∈ (slots l array count).map fun r => W.decode l (p.reqs r),
        ∀ b, p.awaits k = some b → a ∉ b.cells := by
      intro k hk b hb hab
      obtain ⟨r, hr, rfl⟩ := List.mem_map.1 hk
      refine h (List.mem_flatten.2 ⟨b.cells, ?_, hab⟩)
      exact List.mem_map.2 ⟨b, List.mem_filterMap.2 ⟨r, hr, hb⟩, rfl⟩
    cases l with
    | c => exact mem_waitAll ha
    | fortran => exact mem_waitAll ha

/-- An alltoall of some elements fills its receive buffer. -/
theorem alltoall_fills {W : World} {p : App} {l : Lang} {b : Buf} {comm : Comm} {v : Byte}
    (hv : W.arrives p.now b.buf = some v) (hc : 0 < b.count * W.size comm)
    (ht : 0 ∈ b.datatype.typemap) : (effect W p (.alltoall l b comm)).mem b.buf = v := by
  have hm : b.buf ∈ Buf.cells { b with count := b.count * W.size comm } :=
    buf_mem_cells (b := { b with count := b.count * W.size comm }) hc ht
  show deliver (W.arrives p.now) _ p.mem b.buf = v
  simp [deliver, hm, hv]

/-! ## What the hooks dump is what came in -/

/-- The table has on every waited variable what a wait on it would complete. -/
def Agrees (W : World) (p : App) (view : Addr → Option Buf) : Call → Prop
  | .wait l a => view a = p.awaitsVar W l a
  | .waitall l count array => ∀ a ∈ slots l array count, view a = p.awaitsVar W l a
  | _ => True

def FitsInt (x : Int) : Prop := -intMax - 1 ≤ x ∧ x ≤ intMax

/-- The element total of a collective is an `int`. -/
def Call.Fits (W : World) : Call → Prop
  | .alltoall _ b comm => FitsInt (b.count * W.size comm)
  | .alltoallv _ _ rc _ _ comm => FitsInt ((List.range (W.size comm).toNat).map rc).sum
  | _ => True

/-- `rdispls[i]` is the sum of the counts before it. -/
def Call.Packed (W : World) : Call → Prop
  | .alltoallv _ _ rc rd _ comm =>
    ∀ i < (W.size comm).toNat, 0 ≤ rc i ∧ rd i = ((List.range i).map rc).sum
  | _ => True

instance (x : Int) : Decidable (FitsInt x) :=
  inferInstanceAs (Decidable (-intMax - 1 ≤ x ∧ x ≤ intMax))

instance (W : World) : ∀ c : Call, Decidable (c.Fits W)
  | .alltoall _ b comm => inferInstanceAs (Decidable (FitsInt (b.count * W.size comm)))
  | .alltoallv _ _ rc _ _ comm =>
    inferInstanceAs (Decidable (FitsInt ((List.range (W.size comm).toNat).map rc).sum))
  | .init _ | .finalize _ | .send _ | .isend .. | .barrier _ | .recv .. | .irecv .. | .wait ..
  | .waitall .. | .bcast .. | .allreduce .. | .reduce .. => isTrue trivial

instance (W : World) : ∀ c : Call, Decidable (c.Packed W)
  | .alltoallv _ _ rc rd _ comm => inferInstanceAs (Decidable
    (∀ i < (W.size comm).toNat, 0 ≤ rc i ∧ rd i = ((List.range i).map rc).sum))
  | .init _ | .finalize _ | .send _ | .isend .. | .barrier _ | .recv .. | .irecv .. | .wait ..
  | .waitall .. | .bcast .. | .alltoall .. | .allreduce .. | .reduce .. => isTrue trivial

theorem cInt_eq {x : Int} (h : FitsInt x) : cInt x = x := by
  obtain ⟨h0, h1⟩ := h
  unfold intMax at h0 h1
  exact Int.bmod_eq_of_le (by omega) (by omega)

/-- Two sums give one `int` if they differ by a multiple of its range. -/
theorem cInt_eq_cInt_iff {x y : Int} : cInt x = cInt y ↔ 2 ^ 32 ∣ y - x := by
  unfold cInt
  rw [eq_comm, Int.bmod_eq_bmod_iff_bmod_sub_eq_zero, ← Int.dvd_iff_bmod_eq_zero]
  rfl

/-- The loop adds modulo the width of an `int`, so only the total can be off. -/
theorem totalRecvcounts_eq (rc : Nat → Int) (size : Int) :
    totalRecvcounts rc size = cInt ((List.range size.toNat).map rc).sum := by
  unfold totalRecvcounts
  generalize size.toNat = n
  induction n with
  | zero => rfl
  | succ n ih =>
    rw [List.range_succ, List.foldl_append, List.map_append, List.sum_append, ih]
    simp only [List.foldl_cons, List.foldl_nil, List.map_cons, List.map_nil, List.sum_singleton]
    exact Int.bmod_add_bmod

/-- A buffer splits at any element. -/
theorem cells_add (a : Addr) (t : Datatype) {m n : Int} (hm : 0 ≤ m) (hn : 0 ≤ n) :
    Buf.cells ⟨a, m + n, t⟩ = Buf.cells ⟨a, m, t⟩ ++ Buf.cells ⟨a + m * t.extent, n, t⟩ := by
  obtain ⟨m, rfl⟩ := Int.eq_ofNat_of_zero_le hm
  obtain ⟨n, rfl⟩ := Int.eq_ofNat_of_zero_le hn
  simp only [Buf.cells, ← Int.natCast_add, Int.toNat_natCast, List.range_add, List.flatMap_append]
  congr 1
  rw [List.flatMap_map]
  refine List.flatMap_congr fun i _ => ?_
  congr 1
  push_cast
  ring

theorem sum_counts_nonneg {rc : Nat → Int} {n : Nat} (h : ∀ i < n, 0 ≤ rc i) :
    0 ≤ ((List.range n).map rc).sum := by
  refine List.sum_nonneg fun x hx => ?_
  obtain ⟨i, hi, rfl⟩ := List.mem_map.1 hx
  exact h i (List.mem_range.1 hi)

/-- Fewer counts do not add up to more. -/
theorem sum_counts_mono {rc : Nat → Int} {m n : Nat} (h : m ≤ n) (hrc : ∀ i < n, 0 ≤ rc i) :
    ((List.range m).map rc).sum ≤ ((List.range n).map rc).sum := by
  obtain ⟨k, rfl⟩ := Nat.exists_eq_add_of_le h
  have hrest : 0 ≤ ((List.range k).map fun i => rc (m + i)).sum :=
    sum_counts_nonneg fun i hi => hrc (m + i) (by omega)
  have hsplit : ((List.range (m + k)).map rc).sum =
      ((List.range m).map rc).sum + ((List.range k).map fun i => rc (m + i)).sum := by
    rw [List.range_add, List.map_append, List.sum_append, List.map_map]
    rfl
  omega

/-- Packed blocks follow each other without a gap. -/
theorem packed_cells (recvbuf : Addr) {rc rd : Nat → Int} (t : Datatype) :
    ∀ {n : Nat}, (∀ i < n, 0 ≤ rc i ∧ rd i = ((List.range i).map rc).sum) →
      (blocks recvbuf rc rd t n).flatMap Buf.cells =
        Buf.cells ⟨recvbuf, ((List.range n).map rc).sum, t⟩
  | 0, _ => rfl
  | n + 1, h => by
    have ih := packed_cells recvbuf t fun i hi => h i (Nat.lt_succ_of_lt hi)
    have h0 : 0 ≤ ((List.range n).map rc).sum :=
      sum_counts_nonneg fun i hi => (h i (Nat.lt_succ_of_lt hi)).1
    obtain ⟨hn, hd⟩ := h n (Nat.lt_succ_self n)
    simp only [blocks, Int.toNat_natCast] at ih ⊢
    rw [List.range_succ, List.map_append, List.flatMap_append, ih, List.map_append,
      List.sum_append]
    simp only [List.map_cons, List.map_nil, List.flatMap_cons, List.flatMap_nil, List.append_nil,
      List.sum_singleton]
    rw [cells_add _ _ h0 hn, hd]

/-- What the hooks dump is exactly what the call brought in, result by result. -/
theorem dumped_cells {W : World} {p : App} {view : Addr → Option Buf} {c : Call}
    (hv : Agrees W p view c) (hp : c.Packed W) (hf : c.Fits W) :
    (dumped W view c).map Buf.cells = inbound W p c := by
  cases c with
  | wait l a =>
    have hv : view a = p.awaitsVar W l a := hv
    simp only [dumped, inbound, hv]
  | waitall l count array =>
    have hfm : (slots l array count).filterMap view =
        (slots l array count).filterMap (p.awaitsVar W l) := List.filterMap_congr hv
    simp only [dumped, inbound, hfm]
  | bcast l b root comm => by_cases hr : W.rank comm = root <;> simp [dumped, inbound, hr]
  | reduce l b root comm => by_cases hr : W.rank comm = root <;> simp [dumped, inbound, hr]
  | alltoall l b comm => simp only [dumped, inbound, cInt_eq hf, List.map_cons, List.map_nil]
  | alltoallv l recvbuf rc rd t comm =>
    have ht : totalRecvcounts rc (W.size comm) =
        ((List.range (W.size comm).toNat).map rc).sum :=
      (totalRecvcounts_eq rc _).trans (cInt_eq hf)
    have hb : blocks recvbuf rc rd t (W.size comm) =
        blocks recvbuf rc rd t ((W.size comm).toNat : Int) := by simp only [blocks, Int.toNat_natCast]
    simp only [dumped, inbound, ht, List.map_cons, List.map_nil, hb, packed_cells _ _ hp]
  | _ => rfl

end MPIre

import Mathlib.Data.Nat.Digits.Defs
import MPIre.Alltoall
/-
# The arrays of the Fortran `mpi_alltoallv_`

Fortran passes an array as the address of its first integer. `mpi_alltoallv_` takes four
of them as `MPI_Fint *sendcounts[]` and so on, and hands `*sendcounts` to `MPI_Alltoallv`
(capture:416-421, replay:268-273): what it finds at the address, not the address. So the
arrays pass through exactly if each of them starts with its own address
(`passesThrough_iff`).

| here | there |
| --- | --- |
| `intArray m x` | the `int` array at address `x` of memory `m` |
| `readable` | the addresses the process may read; a read elsewhere faults |
| `Arrays` | the arguments `sendcounts, sdispls, recvcounts, rdispls` as addresses |
| `Arrays.forwarded` | `*sendcounts, *sdispls, *recvcounts, *rdispls` |
| `mpiAlltoallvAt`, `mpiAlltoallvAt_` | `MPI_Alltoallv`, `mpi_alltoallv_` of either library, given addresses |

`mpiAlltoallvAt_eq` (one for each library) says that these are the hooks on array
contents, with `E.deref` for the indirection.
-/
namespace MPIre
open Gather

/-! ## Integers and pointers in memory -/

def bytesAt (m : Mem) (x : Addr) (n : Nat) : List Byte :=
  (List.range n).map fun i : Nat => m (x + i)

/-- The number of which these are the bytes, the least significant first. -/
def ofBytes (bs : List Byte) : Nat := Nat.ofDigits 256 (bs.map UInt8.toNat)

def loadInt (m : Mem) (x : Addr) : Int := cInt (ofBytes (bytesAt m x 4))

def intArray (m : Mem) (x : Addr) (i : Nat) : Int := loadInt m (x + 4 * i)

def loadPtr (readable : Addr → Bool) (m : Mem) (x : Addr) : Option Addr :=
  if ∀ i < (8 : Nat), readable (x + i) then some (ofBytes (bytesAt m x 8)) else none

/-- `n` integers from `x` on. -/
def CanRead (readable : Addr → Bool) (x : Addr) (n : Int) : Prop :=
  ∀ i < 4 * n.toNat, readable (x + i)

/-- The first two integers at `x` are the halves of `x`. -/
def OwnAddress (readable : Addr → Bool) (m : Mem) (x : Int) : Prop :=
  (∀ i < (8 : Nat), readable (x + i)) ∧ 0 ≤ x ∧ x < 2 ^ 64 ∧
    intArray m x 0 = cInt (x % 2 ^ 32) ∧ intArray m x 1 = cInt (x / 2 ^ 32)

instance (readable : Addr → Bool) (x : Addr) (n : Int) : Decidable (CanRead readable x n) :=
  inferInstanceAs (Decidable (∀ i < 4 * n.toNat, readable (x + i)))

instance (readable : Addr → Bool) (m : Mem) (x : Int) : Decidable (OwnAddress readable m x) :=
  inferInstanceAs (Decidable ((∀ i < (8 : Nat), readable (x + i)) ∧ 0 ≤ x ∧ x < 2 ^ 64 ∧
    intArray m x 0 = cInt (x % 2 ^ 32) ∧ intArray m x 1 = cInt (x / 2 ^ 32)))

theorem ofBytes_append (bs cs : List Byte) :
    ofBytes (bs ++ cs) = ofBytes bs + 256 ^ bs.length * ofBytes cs := by
  unfold ofBytes
  rw [List.map_append, Nat.ofDigits_append, List.length_map]

theorem ofBytes_lt (bs : List Byte) : ofBytes bs < 256 ^ bs.length := by
  have h : ∀ x ∈ bs.map UInt8.toNat, x < 256 := by
    intro x hx
    obtain ⟨b, -, rfl⟩ := List.mem_map.1 hx
    exact b.toNat_lt
  have hlt := Nat.ofDigits_lt_base_pow_length (by decide) h
  rw [List.length_map] at hlt
  exact hlt

theorem bytesAt_add (m : Mem) (x : Addr) (k n : Nat) :
    bytesAt m x (k + n) = bytesAt m x k ++ bytesAt m (x + k) n := by
  unfold bytesAt
  rw [List.range_add, List.map_append, List.map_map]
  congr 1
  refine List.map_congr_left fun i _ => ?_
  simp [Int.add_assoc]

/-- Two `int`s are equal if their bits are. -/
theorem cInt_inj {x y : Int} (hx : 0 ≤ x ∧ x < 2 ^ 32) (hy : 0 ≤ y ∧ y < 2 ^ 32)
    (h : cInt x = cInt y) : x = y := by
  rw [cInt_eq_cInt_iff] at h
  omega

/-- A pointer is two integers. -/
theorem loadPtr_eq_self_iff {readable : Addr → Bool} {m : Mem} {x : Int} :
    loadPtr readable m x = some x ↔ OwnAddress readable m x := by
  have hlo := ofBytes_lt (bytesAt m x 4)
  have hhi := ofBytes_lt (bytesAt m (x + 4) 4)
  have hlen : ∀ y, (bytesAt m y 4).length = 4 := fun y => by simp [bytesAt]
  have hsplit : ofBytes (bytesAt m x 8) =
      ofBytes (bytesAt m x 4) + 2 ^ 32 * ofBytes (bytesAt m (x + 4) 4) := by
    rw [bytesAt_add m x 4 4, ofBytes_append, hlen]
    rfl
  have h0 : intArray m x 0 = cInt (ofBytes (bytesAt m x 4)) := by simp [intArray, loadInt]
  have h1 : intArray m x 1 = cInt (ofBytes (bytesAt m (x + 4) 4)) := rfl
  rw [hlen] at hlo hhi
  unfold loadPtr OwnAddress
  rw [h0, h1, hsplit]
  generalize ofBytes (bytesAt m x 4) = lo at *
  generalize ofBytes (bytesAt m (x + 4) 4) = hi at *
  constructor
  · intro h
    split at h
    · rename_i hread
      have hx : @Eq Int ((lo + 2 ^ 32 * hi : Nat)) x := Option.some.inj h
      have hxlo : x % 2 ^ 32 = lo := by omega
      have hxhi : x / 2 ^ 32 = hi := by omega
      exact ⟨hread, by omega, by omega, by rw [hxlo], by rw [hxhi]⟩
    · cases h
  · rintro ⟨hread, hpos, hlt, hxlo, hxhi⟩
    have hxlo := cInt_inj (by omega) (by omega) hxlo
    have hxhi := cInt_inj (by omega) (by omega) hxhi
    rw [if_pos hread]
    have hx : @Eq Int ((lo + 2 ^ 32 * hi : Nat)) x := by omega
    exact congrArg some hx

/-! ## The hooks on addresses -/

structure Arrays where
  sendcounts : Addr
  sdispls : Addr
  recvcounts : Addr
  rdispls : Addr
deriving DecidableEq, Repr

def Arrays.toList (a : Arrays) : List Addr := [a.sendcounts, a.sdispls, a.recvcounts, a.rdispls]

def Arrays.forwarded (readable : Addr → Bool) (m : Mem) (a : Arrays) : Option Arrays := do
  let sendcounts ← loadPtr readable m a.sendcounts
  let sdispls ← loadPtr readable m a.sdispls
  let recvcounts ← loadPtr readable m a.recvcounts
  let rdispls ← loadPtr readable m a.rdispls
  pure ⟨sendcounts, sdispls, recvcounts, rdispls⟩

/-- The blocks received, as `PMPI_Alltoallv` finds them in the arrays. -/
def Arrays.cells (m : Mem) (recvbuf : Addr) (a : Arrays) (t : Datatype) (size : Int) : List Addr :=
  (blocks recvbuf (intArray m a.recvcounts) (intArray m a.rdispls) t size).flatMap Buf.cells

/-- `PMPI_Alltoallv` reads all four arrays; the loop over `recvcounts` comes after it. -/
def Capture.mpiAlltoallvAt (E : Env) (readable : Addr → Bool) (s : Capture) (recvbuf : Addr)
    (a : Arrays) (t : Datatype) (comm : Comm) : Option Capture :=
  let size := E.size comm
  if ∀ x ∈ a.toList, CanRead readable x size then
    let ps := a.cells s.app.mem recvbuf t size
    let m := (pmpiReceive E.toWorld s.app ps).mem
    receive E s ps (E.rank comm = s.mpireRank)
      ⟨recvbuf, totalRecvcounts (intArray m a.recvcounts) size, t⟩
  else none

def Capture.mpiAlltoallvAt_ (E : Env) (readable : Addr → Bool) (s : Capture) (recvbuf : Addr)
    (a : Arrays) (t : Datatype) (comm : Comm) : Option Capture := do
  let a ← a.forwarded readable s.app.mem
  mpiAlltoallvAt E readable s recvbuf a t comm

/-- Of the arrays only `recvcounts` is read. -/
def Replay.mpiAlltoallvAt (E : Env) (readable : Addr → Bool) (r : Replay) (recvbuf : Addr)
    (a : Arrays) (t : Datatype) : Option Replay :=
  if CanRead readable a.recvcounts r.mpiCommSize then
    receive E r true ⟨recvbuf, totalRecvcounts (intArray r.mem a.recvcounts) r.mpiCommSize, t⟩
  else none

def Replay.mpiAlltoallvAt_ (E : Env) (readable : Addr → Bool) (r : Replay) (recvbuf : Addr)
    (a : Arrays) (t : Datatype) : Option Replay := do
  let a ← a.forwarded readable r.mem
  mpiAlltoallvAt E readable r recvbuf a t

variable {E E' : Env} {readable : Addr → Bool} {s : Capture} {r : Replay} {recvbuf : Addr}
  {a a' : Arrays} {t : Datatype} {comm : Comm}

/-- The received blocks leave the integers at `x` alone, as MPI asks of its arguments. -/
def Apart (ps : List Addr) (x : Addr) (n : Int) : Prop :=
  ∀ i < 4 * n.toNat, x + (i : Int) ∉ ps

instance (ps : List Addr) (x : Addr) (n : Int) : Decidable (Apart ps x n) :=
  inferInstanceAs (Decidable (∀ i < 4 * n.toNat, x + (i : Int) ∉ ps))

theorem intArray_receive {W : World} {p : App} {ps : List Addr} {x : Addr} {n : Int}
    (h : Apart ps x n) : ∀ i < n.toNat, intArray (pmpiReceive W p ps).mem x i = intArray p.mem x i := by
  intro i hi
  unfold intArray loadInt bytesAt
  congr 3
  refine List.map_congr_left fun j hj => mem_receive fun hm => ?_
  have hj := List.mem_range.1 hj
  refine h (4 * i + j) (by omega) ?_
  have he : @Eq Int (x + ((4 * i + j : Nat) : Int)) (x + 4 * i + j) := by omega
  rw [he]
  exact hm

theorem totalRecvcounts_congr {rc rc' : Nat → Int} {n : Int} (h : ∀ i < n.toNat, rc i = rc' i) :
    totalRecvcounts rc n = totalRecvcounts rc' n := by
  have hm : (List.range n.toNat).map rc = (List.range n.toNat).map rc' :=
    List.map_congr_left fun i hi => h i (List.mem_range.1 hi)
  rw [totalRecvcounts_eq, totalRecvcounts_eq, hm]

/-- The Fortran hook of the capture library on array contents. -/
theorem Capture.mpiAlltoallvAt_eq (hf : a.forwarded readable s.app.mem = some a')
    (hrc : E.deref (intArray s.app.mem a.recvcounts) = some (intArray s.app.mem a'.recvcounts))
    (hrd : E.deref (intArray s.app.mem a.rdispls) = some (intArray s.app.mem a'.rdispls))
    (hread : ∀ x ∈ a'.toList, CanRead readable x (E.size comm))
    (hapart : Apart (a'.cells s.app.mem recvbuf t (E.size comm)) a'.recvcounts (E.size comm)) :
    mpiAlltoallvAt_ E readable s recvbuf a t comm =
      mpiAlltoallv_ E s recvbuf (intArray s.app.mem a.recvcounts) (intArray s.app.mem a.rdispls) t
        comm := by
  unfold mpiAlltoallvAt_ mpiAlltoallv_ mpiAlltoallvAt mpiAlltoallv
  rw [hf, hrc, hrd]
  simp only [Option.bind_eq_bind, Option.bind_some]
  rw [if_pos hread, totalRecvcounts_congr (intArray_receive hapart)]
  rfl

/-- The Fortran hook of the replay library on array contents. -/
theorem Replay.mpiAlltoallvAt_eq {rd' : Nat → Int} (hf : a.forwarded readable r.mem = some a')
    (hrc : E'.deref (intArray r.mem a.recvcounts) = some (intArray r.mem a'.recvcounts))
    (hrd : E'.deref (intArray r.mem a.rdispls) = some rd')
    (hread : CanRead readable a'.recvcounts r.mpiCommSize) :
    mpiAlltoallvAt_ E' readable r recvbuf a t =
      mpiAlltoallv_ E' r recvbuf (intArray r.mem a.recvcounts) (intArray r.mem a.rdispls) t := by
  unfold mpiAlltoallvAt_ mpiAlltoallv_ mpiAlltoallvAt mpiAlltoallv
  rw [hf, hrc, hrd]
  simp only [Option.bind_eq_bind, Option.bind_some]
  rw [if_pos hread]

/-! ## When the arrays pass through -/

/-- What the counts at `x` add up to. -/
def countsAt (m : Mem) (x : Addr) (n : Int) : Int := ((List.range n.toNat).map (intArray m x)).sum

/-- `MPI_Alltoallv` gets the addresses that `mpi_alltoallv_` was given, and the captured
process dumps as many elements as the counts there add up to. -/
def Capture.PassesThrough (E : Env) (readable : Addr → Bool) (s : Capture) (recvbuf : Addr)
    (a : Arrays) (t : Datatype) (comm : Comm) : Prop :=
  a.forwarded readable s.app.mem = some a ∧
    ∃ s', mpiAlltoallvAt_ E readable s recvbuf a t comm = some s' ∧
      s'.hist.map (fun x => x.buf.count) = s.hist.map (fun x => x.buf.count) ++
        if E.rank comm = s.mpireRank ∧ s.activeDump ≠ some 0
          then [countsAt s.app.mem a.recvcounts (E.size comm)] else []

/-- The same of a replay, for a communicator of `n` processes. -/
def Replay.PassesThrough (E : Env) (readable : Addr → Bool) (r : Replay) (recvbuf : Addr)
    (a : Arrays) (t : Datatype) (n : Int) : Prop :=
  a.forwarded readable r.mem = some a ∧
    ∃ r', mpiAlltoallvAt_ E readable r recvbuf a t = some r' ∧
      r'.hist.map (fun x => x.buf.count) =
        r.hist.map (fun x => x.buf.count) ++ [countsAt r.mem a.recvcounts n]

theorem forwarded_eq_self_iff {m : Mem} :
    a.forwarded readable m = some a ↔ ∀ x ∈ a.toList, OwnAddress readable m x := by
  have hall : (∀ x ∈ a.toList, OwnAddress readable m x) ↔
      OwnAddress readable m a.sendcounts ∧ OwnAddress readable m a.sdispls ∧
        OwnAddress readable m a.recvcounts ∧ OwnAddress readable m a.rdispls := by
    simp [Arrays.toList]
  rw [hall]
  simp only [← loadPtr_eq_self_iff]
  unfold Arrays.forwarded
  constructor
  · intro h
    obtain ⟨p, hp, h⟩ := Option.bind_eq_some_iff.1 h
    obtain ⟨q, hq, h⟩ := Option.bind_eq_some_iff.1 h
    obtain ⟨u, hu, h⟩ := Option.bind_eq_some_iff.1 h
    obtain ⟨v, hv, h⟩ := Option.bind_eq_some_iff.1 h
    obtain rfl := Option.some.inj h
    exact ⟨hp, hq, hu, hv⟩
  · rintro ⟨hp, hq, hu, hv⟩
    rw [hp, hq, hu, hv]
    rfl

theorem cInt_eq_iff {x y : Int} : cInt x = y ↔ FitsInt y ∧ 2 ^ 32 ∣ y - x := by
  rw [← cInt_eq_self_iff, ← cInt_eq_cInt_iff]
  constructor
  · rintro rfl
    have h : cInt (cInt x) = cInt x := Int.bmod_bmod
    exact ⟨h, h.symm⟩
  · rintro ⟨hy, h⟩
    rw [h, hy]

/-- A call whose arrays start with their own addresses dumps what the loop adds up. -/
theorem Capture.passes_hist (hF : E.FilesOk)
    (hact : E.rank comm = s.mpireRank → s.activeDump ≠ none)
    (hread : ∀ x ∈ a.toList, CanRead readable x (E.size comm))
    (hapart : Apart (a.cells s.app.mem recvbuf t (E.size comm)) a.recvcounts (E.size comm))
    (hf : a.forwarded readable s.app.mem = some a) :
    ∃ s', mpiAlltoallvAt_ E readable s recvbuf a t comm = some s' ∧
      s'.hist.map (fun x => x.buf.count) = s.hist.map (fun x => x.buf.count) ++
        if E.rank comm = s.mpireRank ∧ s.activeDump ≠ some 0
          then [cInt (countsAt s.app.mem a.recvcounts (E.size comm))] else [] := by
  unfold mpiAlltoallvAt_ mpiAlltoallvAt
  rw [hf]
  simp only [Option.bind_eq_bind, Option.bind_some]
  rw [if_pos hread, totalRecvcounts_congr (intArray_receive hapart), totalRecvcounts_eq]
  unfold receive
  by_cases hr : E.rank comm = s.mpireRank
  · simp only [hr, decide_true, if_true, true_and]
    have hdump := fun app b =>
      writeInFile_eq (s := { s with app := app }) hF (show s.activeDump ≠ none from hact hr) b
    refine ⟨_, hdump _ _, ?_⟩
    show (s.hist ++ transfers s.cptWrite (kept _ _)).map _ = _
    rw [List.map_append]
    by_cases h0 : s.activeDump = some 0
    · simp [kept, transfers, h0]
    · simp [kept, transfers, h0, countsAt]
  · simp only [hr, decide_false, false_and, if_false]
    exact ⟨_, rfl, (List.append_nil _).symm⟩

theorem Capture.passes_iff (hF : E.FilesOk)
    (hact : E.rank comm = s.mpireRank → s.activeDump ≠ none)
    (hread : ∀ x ∈ a.toList, CanRead readable x (E.size comm))
    (hapart : Apart (a.cells s.app.mem recvbuf t (E.size comm)) a.recvcounts (E.size comm)) :
    Capture.PassesThrough E readable s recvbuf a t comm ↔
      (∀ x ∈ a.toList, OwnAddress readable s.app.mem x) ∧
        (E.rank comm = s.mpireRank → s.activeDump ≠ some 0 →
          FitsInt (countsAt s.app.mem a.recvcounts (E.size comm))) := by
  unfold Capture.PassesThrough
  rw [← forwarded_eq_self_iff]
  refine and_congr_right fun hf => ?_
  obtain ⟨s', hs', hhist⟩ := Capture.passes_hist hF hact hread hapart hf
  rw [hs']
  simp only [Option.some.injEq, exists_eq_left', hhist, List.append_cancel_left_eq,
    ← cInt_eq_self_iff]
  by_cases hd : E.rank comm = s.mpireRank ∧ s.activeDump ≠ some 0
  · simp [hd.1, hd.2]
  · rw [if_neg hd, if_neg hd]
    exact iff_of_true rfl fun hr h0 => absurd ⟨hr, h0⟩ hd

theorem Replay.passes_iff {n : Int} (hF : E'.FilesOk)
    (hlog : (r.dir.record r.cptRead).isSome) :
    Replay.PassesThrough E' readable r recvbuf a t n ↔
      (∀ x ∈ a.toList, OwnAddress readable r.mem x) ∧
        CanRead readable a.recvcounts r.mpiCommSize ∧ FitsInt (countsAt r.mem a.recvcounts n) ∧
          2 ^ 32 ∣ countsAt r.mem a.recvcounts n - countsAt r.mem a.recvcounts r.mpiCommSize := by
  unfold Replay.PassesThrough
  rw [← forwarded_eq_self_iff]
  refine and_congr_right fun hf => ?_
  unfold mpiAlltoallvAt_ mpiAlltoallvAt
  rw [hf]
  simp only [Option.bind_eq_bind, Option.bind_some]
  by_cases hread : CanRead readable a.recvcounts r.mpiCommSize
  · obtain ⟨r', hr', hhist⟩ := Replay.receive_hist hF hlog true
      ⟨recvbuf, totalRecvcounts (intArray r.mem a.recvcounts) r.mpiCommSize, t⟩
    have hcount := congrArg (List.map Buf.count) hhist
    rw [List.map_append, List.map_map, List.map_map] at hcount
    have hcount : r'.hist.map (fun x => x.buf.count) = r.hist.map (fun x => x.buf.count) ++
        [cInt (countsAt r.mem a.recvcounts r.mpiCommSize)] := by
      rw [countsAt, ← totalRecvcounts_eq]
      exact hcount
    rw [if_pos hread, hr', ← cInt_eq_iff]
    simp [hcount, hread]
  · rw [if_neg hread]
    simp [hread]

/-- **The arrays of `mpi_alltoallv_`.** In any state of either library they pass through
if and only if each starts with its own address, and the total is that of the counts. -/
theorem passesThrough_iff {n : Int} (hF : E.FilesOk) (hF' : E'.FilesOk)
    (hact : E.rank comm = s.mpireRank → s.activeDump ≠ none)
    (hread : ∀ x ∈ a.toList, CanRead readable x (E.size comm))
    (hapart : Apart (a.cells s.app.mem recvbuf t (E.size comm)) a.recvcounts (E.size comm))
    (hlog : (r.dir.record r.cptRead).isSome) :
    (Capture.PassesThrough E readable s recvbuf a t comm ↔
      (∀ x ∈ a.toList, OwnAddress readable s.app.mem x) ∧
        (E.rank comm = s.mpireRank → s.activeDump ≠ some 0 →
          FitsInt (countsAt s.app.mem a.recvcounts (E.size comm)))) ∧
    (Replay.PassesThrough E' readable r recvbuf a t n ↔
      (∀ x ∈ a.toList, OwnAddress readable r.mem x) ∧
        CanRead readable a.recvcounts r.mpiCommSize ∧ FitsInt (countsAt r.mem a.recvcounts n) ∧
          2 ^ 32 ∣ countsAt r.mem a.recvcounts n - countsAt r.mem a.recvcounts r.mpiCommSize) :=
  ⟨Capture.passes_iff hF hact hread hapart, Replay.passes_iff hF' hlog⟩

/-- Four arrays, each of its own address and three zeroes. -/
def ownAddresses : Mem := fun x => if x = 16 ∨ x = 32 ∨ x = 48 ∨ x = 64 then .ofNat x.toNat else 0

/-- Four arrays of ones. -/
def ones : Mem := fun x => if x % 4 = 0 then 1 else 0

def firstPage (x : Addr) : Bool := 0 ≤ x ∧ x < 4096

theorem passesThrough_ownAddresses :
    let s := Capture.start fourProcesses ownAddresses (fun _ => 0) ⟨none, fun _ => none⟩
    let r := Replay.start fourProcesses fourProcesses ownAddresses ⟨some 4, fun _ => some []⟩
    Capture.PassesThrough fourProcesses firstPage s 100 ⟨16, 32, 48, 64⟩ .byte worldComm ∧
      Replay.PassesThrough fourProcesses firstPage r 100 ⟨16, 32, 48, 64⟩ .byte 4 := by
  intro s r
  have h : (Capture.PassesThrough fourProcesses firstPage s 100 ⟨16, 32, 48, 64⟩ .byte worldComm ↔ _) ∧
      (Replay.PassesThrough fourProcesses firstPage r 100 ⟨16, 32, 48, 64⟩ .byte 4 ↔ _) :=
    passesThrough_iff (fun _ => rfl) (fun _ => rfl) (fun _ => by decide) (by decide) (by decide) rfl
  exact ⟨h.1.2 (by decide), h.2.2 (by decide)⟩

/-- The first two ones of an array make an address outside the page. -/
theorem passesThrough_ones :
    ¬ Capture.PassesThrough fourProcesses firstPage
        (Capture.start fourProcesses ones (fun _ => 0) ⟨none, fun _ => none⟩) 100
        ⟨16, 32, 48, 64⟩ .byte worldComm ∧
      ¬ Replay.PassesThrough fourProcesses firstPage
        (Replay.start fourProcesses fourProcesses ones ⟨some 4, fun _ => some []⟩) 100
        ⟨16, 32, 48, 64⟩ .byte 4 := by
  constructor
  · rintro ⟨hf, -⟩
    revert hf
    decide
  · rintro ⟨hf, -⟩
    revert hf
    decide

end MPIre

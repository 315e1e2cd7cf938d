import Mathlib.Algebra.Order.BigOperators.Group.List
import Mathlib.Algebra.Order.Ring.Nat
import MPIre.Library.Journal
import MPIre.Table
/-
# The process environment and the log directory

| here | there |
| --- | --- |
| `Env.mpireRank` …   | the environment variables `init_MPIre` reads, already through `atoi` |
| `Env.hashPointer`   | the vendored `hash_pointer` |
| `Env.access`        | what the n-th record access meets: the codes of `MPI_File_open` and of `MPI_File_write` / `MPI_File_read` |
| `Env.deref`         | the `int` array found by taking the first words of an array for its address (the `MPI_Fint *recvcounts[]` of `mpi_alltoallv_`); `none` faults |
| `Dir`               | the log directory: `nprocs` and the numbered records |
| `Transfer`          | history: one execution of `write_in_file` or `read_in_file` past its test of the dump flag |
| `snprintf`          | `snprintf(dst, size, "%s", …)`: at most `size - 1` characters |
-/
namespace MPIre

abbrev Path := List Char

def snprintf (size : Nat) (cs : Path) : Path := cs.take (size - 1)

/-- `".mpire/dumps/%d/log/"` (capture:85, replay:60). -/
def defaultPath (rank : Int) : Path := (".mpire/dumps/" ++ toString rank ++ "/log/").toList

structure Access where
  fopen : Int
  xfer : Int
deriving DecidableEq, Repr

structure Transfer where
  index : Nat
  buf : Buf
  access : Access
deriving DecidableEq, Repr

structure Dir where
  nprocs : Option Int
  record : Nat → Option (List Byte)

structure Env extends World where
  hashPointer : Addr → UInt32
  access : Nat → Access
  deref : (Nat → Int) → Option (Nat → Int)
  /-- Whether `fopen` of the `nprocs` file succeeds. -/
  nprocsOpens : Bool
  mpireRank : Option Int
  mpireActiveDump : Option Int
  mpireOutputPath : Option Path
  mpireInputPath : Option Path

/-- File operations succeed. -/
def Env.FilesOk (E : Env) : Prop := ∀ n, E.access n = ⟨mpiSuccess, mpiSuccess⟩

/-- `MPI_ERR_NO_SUCH_FILE`: the open of a record that was never written. -/
def noSuchFile : Int := 42

/-- The least handle above all pending ones. -/
def freshHandle (ops : Ops) : Handle := ((ops.keys.map Int.natAbs).sum + 1 : Nat)

theorem freshHandle_spec (ops : Ops) : freshHandle ops ≠ 0 ∧ freshHandle ops ∉ ops := by
  refine ⟨Int.natCast_ne_zero.2 (Nat.succ_ne_zero _), fun h => ?_⟩
  have hm := List.mem_map_of_mem (f := Int.natAbs) (AList.mem_keys.2 h)
  have hle := List.single_le_sum (fun _ _ => Nat.zero_le _) _ hm
  unfold freshHandle at hle
  rw [Int.natAbs_natCast] at hle
  omega

/-- A process in which nothing fails, every byte that arrives is 1, Fortran's
request integers are the handles, and all addresses have one hash. -/
def Env.plain (rank size : Comm → Int) (mpireRank : Int) : Env where
  requestNull := 0
  requestF2c := id
  requestC2f := id
  rank := rank
  size := size
  code _ := mpiSuccess
  fresh _ := freshHandle
  arrives _ _ := some 1
  fresh_spec _ := freshHandle_spec
  hashPointer _ := 0
  access _ := ⟨mpiSuccess, mpiSuccess⟩
  deref _ := none
  nprocsOpens := true
  mpireRank := some mpireRank
  mpireActiveDump := none
  mpireOutputPath := none
  mpireInputPath := none

end MPIre

import MPIre.Host
/-
# The replay library (src/mpire/mpire_replay.c)

The hooks of `libmpire_replay`, preloaded over MPI in one process: inbound data
comes from the numbered records, and nothing is sent. `none` is an
`exit(EXIT_FAILURE)` of the library, or a fault.

| here | there |
| --- | --- |
| `Replay`              | the globals of the library, the application's memory, the directory it reads |
| `readInFile`          | `read_in_file` (20-44) |
| `initMPIre`           | `init_MPIre` (46-80) |
| `mpiInit`             | `MPI_Init`, `mpi_init_` (82-112): a second call only rewinds the counter |
| `mpiFinalize`         | 117-134 |
| `mpiIrecv` … `mpiAlltoallv_` | 139-273 |
| `mpiBcast` … `mpiWait_` | 291-387 |
| `mpiReduce`, `mpiReduceNoUnderscore` | `MPI_Reduce` (993-1001), `mpi_reduce` (1003-1008) |
| `step`                | the symbol each call of the application binds to |
| `Hook`, `hook`        | all hooked symbols, those no captured call binds to included |

The request variables do not appear: no hook of this library reads or writes one.
-/
namespace MPIre
open Gather

structure Replay where
  mem : Mem
  now : Nat
  ret : Int
  /-- The last value stored through an output argument (`rank`, `size`, `flag`). -/
  out : Int
  cptRead : Nat
  mpireRank : Int
  mpireSize : Int
  inputPath : Path
  requestHtab : Htable
  dir : Dir
  hist : List Transfer
  /-- What `MPI_Initialized` answers. -/
  initialized : Bool

namespace Replay

/-- The library as it is loaded, before `MPI_Init`. -/
def boot (mem : Mem) (dir : Dir) : Replay where
  mem := mem
  now := 0
  ret := mpiSuccess
  out := 0
  cptRead := 0
  mpireRank := 0
  mpireSize := 0
  inputPath := []
  requestHtab := []
  dir := dir
  hist := []
  initialized := false

/-- The code of `MPI_File_open` with `MPI_MODE_RDONLY` on record `index`. -/
def openCode (s : Replay) (a : Access) : Int :=
  match s.dir.record s.cptRead with
  | none => noSuchFile
  | some _ => a.fopen

/-- The open is tested with `fp != MPI_SUCCESS`; `my_read_error` is not looked at. -/
def readInFile (E : Env) (s : Replay) (b : Buf) : Option Replay :=
  let a := E.access s.hist.length
  let fp := s.openCode a
  if fp ≠ mpiSuccess then none
  else some { s with
    cptRead := s.cptRead + 1
    mem := if a.xfer = mpiSuccess
      then scatter s.mem b.cells ((s.dir.record s.cptRead).getD []) else s.mem
    hist := s.hist ++ [⟨s.cptRead, b, ⟨fp, a.xfer⟩⟩] }

def initMPIre (E : Env) (s : Replay) : Option Replay :=
  match E.mpireRank with
  | none => none
  | some r =>
    match (if E.nprocsOpens then s.dir.nprocs else none) with
    | none => none
    | some n => some { s with
        mpireRank := r
        mpireSize := n
        inputPath := snprintf 1024 (E.mpireInputPath.getD (defaultPath r))
        requestHtab := [] }

/-- The part of `MPI_Init` an initialised process runs. -/
def reinit (s : Replay) : Replay := { s with cptRead := 0, ret := mpiSuccess }

def mpiInit (E : Env) (s : Replay) : Option Replay :=
  if s.initialized then some s.reinit
  else do
    let s ← initMPIre E s
    pure { s with initialized := true, now := s.now + 1, ret := E.code s.now }

def mpiFinalize (E : Env) (s : Replay) : Option Replay :=
  some { s with requestHtab := [], now := s.now + 1, ret := E.code s.now }

/-- A hook that does nothing but `return MPI_SUCCESS`. -/
def success (s : Replay) : Option Replay := some { s with ret := mpiSuccess }

def output (s : Replay) (out : Int) : Option Replay := some { s with ret := mpiSuccess, out := out }

def mpiIrecv (E : Env) (s : Replay) (b : Buf) (request : Addr) : Option Replay := do
  let ht ← addRequest E.hashPointer s.requestHtab b request
  success { s with requestHtab := ht }

def mpiIrecv_ (E : Env) (s : Replay) (b : Buf) (request : Addr) : Option Replay :=
  mpiIrecv E s b request

/-- `read_in_file` of `b` if `load`, and `return MPI_SUCCESS`. -/
def receive (E : Env) (s : Replay) (load : Bool) (b : Buf) : Option Replay := do
  let s ← if load then readInFile E s b else some s
  success s

def mpiRecv (E : Env) (s : Replay) (b : Buf) : Option Replay := receive E s true b

def mpiRecv_ (E : Env) (s : Replay) (b : Buf) : Option Replay := mpiRecv E s b

def mpiAllreduce (E : Env) (s : Replay) (b : Buf) : Option Replay := receive E s true b

def mpiAllreduce_ (E : Env) (s : Replay) (b : Buf) : Option Replay := mpiAllreduce E s b

/-- `MPI_Comm_size` is the library's own hook: `MPIre_size` on every communicator. -/
def mpiCommSize (s : Replay) : Int := s.mpireSize

def mpiCommRank (s : Replay) : Int := s.mpireRank

def mpiAlltoall (E : Env) (s : Replay) (b : Buf) : Option Replay :=
  receive E s true { b with count := cInt (b.count * s.mpiCommSize) }

def mpiAlltoall_ (E : Env) (s : Replay) (b : Buf) : Option Replay := mpiAlltoall E s b

def mpiAlltoallv (E : Env) (s : Replay) (recvbuf : Addr) (recvcounts : Nat → Int)
    (recvtype : Datatype) : Option Replay :=
  receive E s true ⟨recvbuf, totalRecvcounts recvcounts s.mpiCommSize, recvtype⟩

def mpiAlltoallv_ (E : Env) (s : Replay) (recvbuf : Addr) (recvcounts rdispls : Nat → Int)
    (recvtype : Datatype) : Option Replay := do
  let recvcounts ← E.deref recvcounts
  let _ ← E.deref rdispls
  mpiAlltoallv E s recvbuf recvcounts recvtype

def mpiBcast (E : Env) (s : Replay) (b : Buf) (root : Int) : Option Replay :=
  receive E s (s.mpireRank ≠ root) b

def mpiBcast_ (E : Env) (s : Replay) (b : Buf) (root : Int) : Option Replay := mpiBcast E s b root

/-- The loop of a wait over the library's table. -/
def drain (s : Replay) (loop : Replay × Htable → Option (Replay × Htable)) : Option Replay := do
  let (s, ht) ← loop (s, s.requestHtab)
  success { s with requestHtab := ht }

def mpiWaitall (E : Env) (s : Replay) (count : Nat) (arrayOfRequests : Addr) : Option Replay :=
  drain s (settleAll E.hashPointer (readInFile E) (slots .c arrayOfRequests count))

def mpiWaitall_ (E : Env) (s : Replay) (count : Nat) (arrayOfRequests : Addr) : Option Replay :=
  drain s (settleAll E.hashPointer (readInFile E) (slots .fortran arrayOfRequests count))

def mpiWait (E : Env) (s : Replay) (request : Addr) : Option Replay :=
  drain s (settle E.hashPointer (readInFile E) request request)

def mpiWait_ (E : Env) (s : Replay) (request : Addr) : Option Replay := mpiWait E s request

def mpiReduce (E : Env) (s : Replay) (b : Buf) (root : Int) : Option Replay :=
  receive E s (s.mpireRank = root) b

/-- `mpi_reduce`, a symbol no Fortran call binds to. -/
def mpiReduceNoUnderscore (E : Env) (s : Replay) (b : Buf) (root : Int) : Option Replay :=
  mpiReduce E s b root

/-- The library has no `mpi_reduce_`: the call reaches MPI, which leaves in the
receive buffer whatever it leaves there. -/
def fallThrough (E : Env) (s : Replay) (b : Buf) : Option Replay :=
  some { s with
    mem := deliver (E.arrives s.now) b.cells s.mem
    now := s.now + 1
    ret := E.code s.now }

def step (E : Env) (s : Replay) : Call → Option Replay
  | .init _ => mpiInit E s
  | .finalize _ => mpiFinalize E s
  | .send _ => success s
  | .isend _ _ => success s
  | .barrier _ => success s
  | .recv .c b _ => mpiRecv E s b
  | .recv .fortran b _ => mpiRecv_ E s b
  | .irecv .c b _ request => mpiIrecv E s b request
  | .irecv .fortran b _ request => mpiIrecv_ E s b request
  | .wait .c request => mpiWait E s request
  | .wait .fortran request => mpiWait_ E s request
  | .waitall .c count array => mpiWaitall E s count array
  | .waitall .fortran count array => mpiWaitall_ E s count array
  | .bcast .c b root _ => mpiBcast E s b root
  | .bcast .fortran b root _ => mpiBcast_ E s b root
  | .alltoall .c b _ => mpiAlltoall E s b
  | .alltoall .fortran b _ => mpiAlltoall_ E s b
  | .alltoallv .c recvbuf rc _ t _ => mpiAlltoallv E s recvbuf rc t
  | .alltoallv .fortran recvbuf rc rd t _ => mpiAlltoallv_ E s recvbuf rc rd t
  | .allreduce .c b _ => mpiAllreduce E s b
  | .allreduce .fortran b _ => mpiAllreduce_ E s b
  | .reduce .c b root _ => mpiReduce E s b root
  | .reduce .fortran b _ _ => fallThrough E s b

/-- A call that reaches a hook of the library. -/
inductive Hook where
  | call (c : Call)
  | finalized (l : Lang)
  | abort (l : Lang)
  | commRank (l : Lang)
  | commSize (l : Lang)
  | start (l : Lang)
  | reduceNoUnderscore (b : Buf) (root : Int)

def hook (E : Env) (s : Replay) : Hook → Option Replay
  | .call c => step E s c
  | .finalized _ => output s 1
  | .abort _ => success s
  | .commRank _ => output s s.mpiCommRank
  | .commSize _ => output s s.mpiCommSize
  | .start _ => success s
  | .reduceNoUnderscore b root => mpiReduceNoUnderscore E s b root

end Replay

end MPIre

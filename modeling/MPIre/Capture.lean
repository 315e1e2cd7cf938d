import MPIre.Host
/-
# The capture library (src/mpire/mpire_capture.c)

The hooks of `libmpire_capture`, preloaded over MPI: each makes the `PMPI_` call
and then, if the rank it asked for is the captured one, updates the table or
dumps a buffer. `none` is a process that is gone: an `exit(EXIT_FAILURE)` of the
library, or a fault.

| here | there |
| --- | --- |
| `Capture`             | the globals of the library, the application it sits in, the directory it writes |
| `writeInFile`         | `write_in_file` (33-58) |
| `initMPIre`           | `init_MPIre` (60-115), after `mkpath` |
| `mpiIrecv`, `mpiIrecv_` | 169-182, 184-202 |
| `mpiRecv`, `mpiRecv_` | 204-218, 220-229 |
| `mpiWait`, `mpiWait_` | 231-251, 253-276 |
| `mpiWaitall`, `mpiWaitall_` | 278-305, 307-346 |
| `mpiBcast` … `mpiReduce_` | 348-461 |
| `step`                | the symbol each call of the application binds to; sends and barriers are not hooked |
-/
namespace MPIre
open Gather

structure Capture where
  app : App
  cptWrite : Nat
  mpireRank : Int
  /-- The environment variable `MPIRE_ACTIVE_DUMP` through `atoi`; unset is `none`. -/
  activeDump : Option Int
  outputPath : Path
  /-- `none`: never initialised, its bucket array is a null pointer. -/
  requestHtab : Option Htable
  dir : Dir
  hist : List Transfer

namespace Capture

/-- The library as it is loaded, before `MPI_Init`. -/
def boot (E : Env) (mem : Mem) (reqs : Addr → Int) (dir : Dir) : Capture where
  app := ⟨mem, reqs, ∅, 0, mpiSuccess⟩
  cptWrite := 0
  mpireRank := 0
  activeDump := E.mpireActiveDump
  outputPath := []
  requestHtab := none
  dir := dir
  hist := []

/-- The open is tested with `fp < 0`, the write not at all. A failed open leaves
the directory alone, a failed write leaves the file `MPI_MODE_CREATE` made. -/
def writeInFile (E : Env) (s : Capture) (b : Buf) : Option Capture :=
  match s.activeDump with
  | none => none
  | some v =>
    if v = 0 then some s
    else
      let a := E.access s.hist.length
      let payload := if a.xfer = mpiSuccess then gather s.app.mem b.cells else []
      if a.fopen < 0 then none
      else some { s with
        cptWrite := s.cptWrite + 1
        dir := if a.fopen = mpiSuccess
          then { s.dir with record := Journal.write s.dir.record s.cptWrite payload } else s.dir
        hist := s.hist ++ [⟨s.cptWrite, b, a⟩] }

def initMPIre (E : Env) (s : Capture) : Option Capture :=
  match E.mpireRank with
  | none => none
  | some r =>
    if E.rank worldComm = r then
      if E.nprocsOpens then
        some { s with
          mpireRank := r
          activeDump := some (s.activeDump.getD 1)
          outputPath := snprintf 128 (E.mpireOutputPath.getD (defaultPath r))
          requestHtab := some []
          dir := { s.dir with nprocs := some (E.size worldComm) } }
      else none
    else some { s with mpireRank := r }

def mpiInit (E : Env) (s : Capture) : Option Capture :=
  initMPIre E { s with app := s.app.tick E.toWorld }

/-- `PMPI_Finalize`, then `htable_clear`, which every process runs. -/
def mpiFinalize (E : Env) (s : Capture) : Option Capture :=
  some { s with app := s.app.tick E.toWorld, requestHtab := some [] }

/-- `add_request` on the library's table. -/
def register (E : Env) (s : Capture) (b : Buf) (request : Addr) : Option Capture := do
  let ht ← s.requestHtab
  let ht ← addRequest E.hashPointer ht b request
  pure { s with requestHtab := some ht }

/-- Registered before the post, so `add_request` exits before `PMPI_Irecv`. -/
def irecv (l : Lang) (E : Env) (s : Capture) (b : Buf) (comm : Comm) (request : Addr) :
    Option Capture := do
  let s ← if E.rank comm = s.mpireRank then register E s b request else pure s
  pure { s with app := pmpiPostVar E.toWorld s.app l request (some b) }

def mpiIrecv (E : Env) (s : Capture) (b : Buf) (comm : Comm) (request : Addr) : Option Capture :=
  irecv .c E s b comm request

def mpiIrecv_ (E : Env) (s : Capture) (b : Buf) (comm : Comm) (request : Addr) :
    Option Capture :=
  irecv .fortran E s b comm request

/-- A `PMPI_` call that receives into `ps`, and then `write_in_file` of `b` if `dump`. -/
def receive (E : Env) (s : Capture) (ps : List Addr) (dump : Bool) (b : Buf) : Option Capture :=
  let s := { s with app := pmpiReceive E.toWorld s.app ps }
  if dump then writeInFile E s b else some s

def mpiRecv (E : Env) (s : Capture) (b : Buf) (comm : Comm) : Option Capture :=
  receive E s b.cells (E.rank comm = s.mpireRank) b

def mpiRecv_ (E : Env) (s : Capture) (b : Buf) (comm : Comm) : Option Capture :=
  mpiRecv E s b comm

/-- The tail of every wait: on the captured rank of the world, run the loop over
the library's table. -/
def drain (E : Env) (s : Capture)
    (loop : Capture × Htable → Option (Capture × Htable)) : Option Capture :=
  if E.rank worldComm = s.mpireRank then do
    let ht ← s.requestHtab
    let (s, ht) ← loop (s, ht)
    pure { s with requestHtab := some ht }
  else some s

def mpiWait (E : Env) (s : Capture) (request : Addr) : Option Capture :=
  let r := pmpiWait E.toWorld s.app (s.app.reqs request)
  drain E { s with app := r.1.setReq request r.2 }
    (settle E.hashPointer (writeInFile E) request request)

/-- The handle completed is a local copy; `*request` keeps the old one. -/
def mpiWait_ (E : Env) (s : Capture) (request : Addr) : Option Capture :=
  let r := pmpiWait E.toWorld s.app (E.requestF2c (s.app.reqs request))
  drain E { s with app := r.1 } (settle E.hashPointer (writeInFile E) request request)

/-- The lookup is `get_request(array_of_requests[i])`: the handle, not its address. -/
def mpiWaitall (E : Env) (s : Capture) (count : Nat) (arrayOfRequests : Addr) : Option Capture :=
  let as := slots .c arrayOfRequests count
  let r := pmpiWaitall E.toWorld s.app (as.map s.app.reqs)
  let app := r.1.setReqs E.toWorld .c as r.2
  drain E { s with app := app }
    (as.foldlM fun x a => settle E.hashPointer (writeInFile E) (app.reqs a) a x)

/-- The handles completed are local copies; the array keeps the old ones. -/
def mpiWaitall_ (E : Env) (s : Capture) (count : Nat) (arrayOfRequests : Addr) :
    Option Capture :=
  let as := slots .fortran arrayOfRequests count
  let r := pmpiWaitall E.toWorld s.app (as.map fun a => E.requestF2c (s.app.reqs a))
  drain E { s with app := r.1 } (settleAll E.hashPointer (writeInFile E) as)

def mpiBcast (E : Env) (s : Capture) (b : Buf) (root : Int) (comm : Comm) : Option Capture :=
  let rank := E.rank comm
  receive E s (if rank ≠ root then b.cells else []) (rank = s.mpireRank ∧ rank ≠ root) b

def mpiBcast_ (E : Env) (s : Capture) (b : Buf) (root : Int) (comm : Comm) : Option Capture :=
  mpiBcast E s b root comm

/-- MPI receives `recvcount` elements from each peer; the dump takes `recvcount*size`
of them, a product of two `int`s. -/
def mpiAlltoall (E : Env) (s : Capture) (b : Buf) (comm : Comm) : Option Capture :=
  let size := E.size comm
  receive E s { b with count := b.count * size }.cells (E.rank comm = s.mpireRank)
    { b with count := cInt (b.count * size) }

def mpiAlltoall_ (E : Env) (s : Capture) (b : Buf) (comm : Comm) : Option Capture :=
  mpiAlltoall E s b comm

def mpiAlltoallv (E : Env) (s : Capture) (recvbuf : Addr) (recvcounts rdispls : Nat → Int)
    (recvtype : Datatype) (comm : Comm) : Option Capture :=
  let size := E.size comm
  receive E s ((blocks recvbuf recvcounts rdispls recvtype size).flatMap Buf.cells)
    (E.rank comm = s.mpireRank) ⟨recvbuf, totalRecvcounts recvcounts size, recvtype⟩

/-- `*recvcounts` of a `MPI_Fint *recvcounts[]` is one dereference too many. -/
def mpiAlltoallv_ (E : Env) (s : Capture) (recvbuf : Addr) (recvcounts rdispls : Nat → Int)
    (recvtype : Datatype) (comm : Comm) : Option Capture := do
  let recvcounts ← E.deref recvcounts
  let rdispls ← E.deref rdispls
  mpiAlltoallv E s recvbuf recvcounts rdispls recvtype comm

def mpiAllreduce (E : Env) (s : Capture) (b : Buf) (comm : Comm) : Option Capture :=
  receive E s b.cells (E.rank comm = s.mpireRank) b

def mpiAllreduce_ (E : Env) (s : Capture) (b : Buf) (comm : Comm) : Option Capture :=
  mpiAllreduce E s b comm

def mpiReduce (E : Env) (s : Capture) (b : Buf) (root : Int) (comm : Comm) : Option Capture :=
  let rank := E.rank comm
  receive E s (if rank = root then b.cells else []) (rank = s.mpireRank ∧ rank = root) b

def mpiReduce_ (E : Env) (s : Capture) (b : Buf) (root : Int) (comm : Comm) : Option Capture :=
  mpiReduce E s b root comm

def step (E : Env) (s : Capture) : Call → Option Capture
  | .init _ => mpiInit E s
  | .finalize _ => mpiFinalize E s
  | .send _ => some { s with app := s.app.tick E.toWorld }
  | .isend l request => some { s with app := pmpiPostVar E.toWorld s.app l request none }
  | .barrier _ => some { s with app := s.app.tick E.toWorld }
  | .recv .c b comm => mpiRecv E s b comm
  | .recv .fortran b comm => mpiRecv_ E s b comm
  | .irecv .c b comm request => mpiIrecv E s b comm request
  | .irecv .fortran b comm request => mpiIrecv_ E s b comm request
  | .wait .c request => mpiWait E s request
  | .wait .fortran request => mpiWait_ E s request
  | .waitall .c count array => mpiWaitall E s count array
  | .waitall .fortran count array => mpiWaitall_ E s count array
  | .bcast .c b root comm => mpiBcast E s b root comm
  | .bcast .fortran b root comm => mpiBcast_ E s b root comm
  | .alltoall .c b comm => mpiAlltoall E s b comm
  | .alltoall .fortran b comm => mpiAlltoall_ E s b comm
  | .alltoallv .c recvbuf rc rd t comm => mpiAlltoallv E s recvbuf rc rd t comm
  | .alltoallv .fortran recvbuf rc rd t comm => mpiAlltoallv_ E s recvbuf rc rd t comm
  | .allreduce .c b comm => mpiAllreduce E s b comm
  | .allreduce .fortran b comm => mpiAllreduce_ E s b comm
  | .reduce .c b root comm => mpiReduce E s b root comm
  | .reduce .fortran b root comm => mpiReduce_ E s b root comm

end Capture

end MPIre

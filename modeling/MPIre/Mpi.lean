import Mathlib.Algebra.Group.Int.Defs
import Mathlib.Algebra.Group.Nat.Defs
import Mathlib.Data.List.AList
import MPIre.Library.Gather
/-
# MPI as one process sees it

The MPI implementation is outside the repository. What the two libraries rely on
is modelled here: the layout of a buffer, the operations pending on request
handles, and the `PMPI_` entry points. Whatever MPI is free to choose (the data
that arrives, the handle of a new operation, the code a call returns) is a field
of `World`, indexed by the number of the call, so that a statement about every
`World` is a statement about every behaviour of MPI.

| here | there |
| --- | --- |
| `Buf`                     | the triple `buf, count, datatype` every hook passes on |
| `App`                     | the application's memory and request variables, and MPI's pending operations |
| `Op.request`, `Op.time`   | history: the variable an operation was posted on, and when |
| `World.code`              | the error code a `PMPI_` call returns (`MPI_SUCCESS` is 0) |
| `pmpiPost`                | `PMPI_Irecv`, `PMPI_Isend` |
| `pmpiWait`, `pmpiWaitall` | `PMPI_Wait`, `PMPI_Waitall`: data arrives at the completion |
| `pmpiReceive`             | `PMPI_Recv`, `PMPI_Bcast`, `PMPI_Alltoall`, …: data arrives in the call |

Outgoing data, peers, tags and statuses decide nothing in either library; a call
carries only what a hook looks at.
-/
namespace MPIre
open Gather

abbrev Addr := Int
abbrev Byte := UInt8
abbrev Mem := Addr → Byte
/-- A C `MPI_Request` is a pointer, so its values live among the addresses. -/
abbrev Handle := Addr
abbrev Comm := Nat

def mpiSuccess : Int := 0
def worldComm : Comm := 0
def selfComm : Comm := 1

def intMax : Int := 2 ^ 31 - 1

/-- The value a C `int` holds after arithmetic whose exact result is `x`. -/
def cInt (x : Int) : Int := x.bmod (2 ^ 32)

/-- An MPI datatype: the byte displacements of its type map, and its extent. -/
structure Datatype where
  typemap : List Int
  extent : Int
deriving DecidableEq, Repr

structure Buf where
  buf : Addr
  count : Int
  datatype : Datatype
deriving DecidableEq, Repr

/-- `MPI_BYTE`. -/
def Datatype.byte : Datatype := ⟨[0], 1⟩

def Datatype.element (t : Datatype) (a : Addr) : List Addr := t.typemap.map fun d => a + d

/-- The bytes of a buffer, in the order MPI transfers them. -/
def Buf.cells (b : Buf) : List Addr :=
  (List.range b.count.toNat).flatMap fun i : Nat =>
    b.datatype.element (b.buf + i * b.datatype.extent)

/-- A buffer of some elements has its first address among its bytes. -/
theorem buf_mem_cells {b : Buf} (hc : 0 < b.count) (ht : 0 ∈ b.datatype.typemap) :
    b.buf ∈ b.cells := by
  unfold Buf.cells Datatype.element
  rw [List.mem_flatMap]
  refine ⟨0, List.mem_range.2 (by omega), List.mem_map.2 ⟨0, ht, ?_⟩⟩
  simp

/-- A pending operation; `recv` is `none` for a send. -/
structure Op where
  request : Addr
  recv : Option Buf
  time : Nat
deriving DecidableEq, Repr

abbrev Ops := AList fun _ : Handle => Op

structure App where
  mem : Mem
  /-- The request variables: C handles, or Fortran integers for them. -/
  reqs : Addr → Int
  ops : Ops
  /-- Number of `PMPI_` calls made so far. -/
  now : Nat
  /-- The code the last call returned. -/
  ret : Int

structure World where
  requestNull : Handle
  requestF2c : Int → Handle
  requestC2f : Handle → Int
  rank : Comm → Int
  size : Comm → Int
  code : Nat → Int
  fresh : Nat → Ops → Handle
  arrives : Nat → Addr → Option Byte
  fresh_spec : ∀ n ops, fresh n ops ≠ requestNull ∧ fresh n ops ∉ ops

/-- Communication succeeds. -/
def World.Succeeds (W : World) : Prop := ∀ n, W.code n = mpiSuccess

/-- The two language bindings. -/
inductive Lang where
  | c | fortran
deriving DecidableEq, Repr

/-- The handle a request variable's content stands for. -/
def World.decode (W : World) : Lang → Int → Handle
  | .c, x => x
  | .fortran, x => W.requestF2c x

def World.encode (W : World) : Lang → Handle → Int
  | .c, h => h
  | .fortran, h => W.requestC2f h

/-- `array_of_requests + i`: a C request is a pointer, a Fortran one an integer. -/
def slot : Lang → Int → Nat → Int
  | .c, array, i => array + 8 * i
  | .fortran, array, i => array + 4 * i

def slots (l : Lang) (array : Addr) (count : Nat) : List Addr :=
  (List.range count).map (slot l array)

theorem slot_injective (l : Lang) (array : Addr) : Function.Injective (slot l array) := by
  intro i j h
  cases l <;> simp only [slot] at h <;> omega

theorem nodup_slots (l : Lang) (array : Addr) (count : Nat) : (slots l array count).Nodup :=
  List.nodup_range.map (slot_injective l array)

/-! ## The `PMPI_` calls -/

def App.tick (W : World) (p : App) : App := { p with now := p.now + 1, ret := W.code p.now }

def App.setReq (p : App) (a : Addr) (x : Int) : App :=
  { p with reqs := Function.update p.reqs a x }

/-- A call whose own buffer is the cells `ps`; they may change even if it fails. -/
def pmpiReceive (W : World) (p : App) (ps : List Addr) : App :=
  ({ p with mem := deliver (W.arrives p.now) ps p.mem } : App).tick W

/-- A post through variable `request`, which holds handle `old` before. -/
def pmpiPost (W : World) (p : App) (request : Addr) (recv : Option Buf) (old : Handle) :
    App × Handle :=
  if W.code p.now = mpiSuccess then
    let h := W.fresh p.now p.ops
    (({ p with ops := p.ops.insert h ⟨request, recv, p.now⟩ } : App).tick W, h)
  else (p.tick W, old)

/-- The cells of a pending receive; a send or an inactive handle has none. -/
def App.awaits (p : App) (h : Handle) : Option Buf := (p.ops.lookup h).bind Op.recv

def Buf.cellsOf (b : Option Buf) : List Addr := (b.map Buf.cells).getD []

/-- Complete the operation of one handle; an inactive handle is left alone. -/
def complete (W : World) (p : App) (h : Handle) : App :=
  { p with mem := deliver (W.arrives p.now) (Buf.cellsOf (p.awaits h)) p.mem
           ops := p.ops.erase h }

/-- The new content of the handle comes back as the second component. -/
def pmpiWait (W : World) (p : App) (h : Handle) : App × Handle :=
  if W.code p.now = mpiSuccess then ((complete W p h).tick W, W.requestNull) else (p.tick W, h)

def pmpiWaitall (W : World) (p : App) (hs : List Handle) : App × List Handle :=
  if W.code p.now = mpiSuccess then
    ((hs.foldl (complete W) p).tick W, hs.map fun _ => W.requestNull)
  else (p.tick W, hs)

/-- Store handles into the request variables `as`, one each. -/
def App.setReqs (W : World) (l : Lang) (p : App) (as : List Addr) (hs : List Handle) : App :=
  { p with reqs := scatter p.reqs as (hs.map (W.encode l)) }

/-! ## The calls of an application -/

/-- An MPI call through the binding `l`. For `alltoall` the count is the one for
each peer; `recvcounts` and `rdispls` are the contents of the arrays, past their
end too. -/
inductive Call where
  | init (l : Lang)
  | finalize (l : Lang)
  | send (l : Lang)
  | isend (l : Lang) (request : Addr)
  | barrier (l : Lang)
  | recv (l : Lang) (b : Buf) (comm : Comm)
  | irecv (l : Lang) (b : Buf) (comm : Comm) (request : Addr)
  | wait (l : Lang) (request : Addr)
  | waitall (l : Lang) (count : Nat) (arrayOfRequests : Addr)
  | bcast (l : Lang) (b : Buf) (root : Int) (comm : Comm)
  | alltoall (l : Lang) (b : Buf) (comm : Comm)
  | alltoallv (l : Lang) (recvbuf : Addr) (recvcounts rdispls : Nat → Int) (recvtype : Datatype)
      (comm : Comm)
  | allreduce (l : Lang) (b : Buf) (comm : Comm)
  | reduce (l : Lang) (b : Buf) (root : Int) (comm : Comm)

/-- The blocks `MPI_Alltoallv` receives into, one for each of `n` peers. -/
def blocks (recvbuf : Addr) (recvcounts rdispls : Nat → Int) (recvtype : Datatype) (n : Int) :
    List Buf :=
  (List.range n.toNat).map fun i =>
    ⟨recvbuf + rdispls i * recvtype.extent, recvcounts i, recvtype⟩

/-- `for (i = 0; i < size; i++) total_recvcounts += recvcounts[i];` on an `int`
(capture:409-411, replay:261-262). -/
def totalRecvcounts (recvcounts : Nat → Int) (size : Int) : Int :=
  (List.range size.toNat).foldl (fun total i => cInt (total + recvcounts i)) 0

/-- The binding the MPI library itself gives a post. -/
def pmpiPostVar (W : World) (p : App) (l : Lang) (request : Addr) (recv : Option Buf) : App :=
  let r := pmpiPost W p request recv (W.decode l (p.reqs request))
  r.1.setReq request (W.encode l r.2)

end MPIre

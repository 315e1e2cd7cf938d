import MPIre.Chronicle
/-
# The C `MPI_Waitall` of the capture library

`MPI_Waitall` looks its requests up after the completion and by the handle,
`get_request(array_of_requests[i])` (capture:297), where every other hook uses the
address of the variable. The completion has set the handles to `MPI_REQUEST_NULL`, so
nothing is found: the call writes no record and clears no entry. It does what a wait
owes the log (`Waited`) exactly if no element of the array was registered
(`waitall_iff`). The Fortran `mpi_waitall_` always does (`waited_fortran`).
-/
namespace MPIre
open Gather Run

/-- One record for each registered receive of the array, in index order and with the
bytes after the completion; exactly these leave the table, so their variables can be
posted on again; and the same wait under the replay library loads these records. -/
def Waited (E : Env) (s : Capture) (l : Lang) (count : Nat) (array : Addr) : Prop :=
  ∃ s', Capture.step E s (.waitall l count array) = some s' ∧
    let as := slots l array count
    let bs := as.filterMap (s.registered E)
    s'.cptWrite = s.cptWrite + bs.length ∧
    s'.dir.record = Journal.append s.dir.record s.cptWrite
      (bs.map fun b => gather s'.app.mem b.cells) ∧
    (∀ a, s'.registered E a = if a ∈ as then none else s.registered E a) ∧
    (∀ a ∈ as, ∀ b, (Capture.step E s' (.irecv l b worldComm a)).isSome) ∧
    ∀ (E' : Env) (r : Replay), r.Ready E' E.toWorld → E'.FilesOk → r.cptRead = s.cptWrite →
      s'.Left r.dir.record → (∀ a ∈ as, r.requestHtab.view E'.hashPointer a = s.registered E a) →
      ∃ r', Replay.step E' r (.waitall l count array) = some r' ∧ r'.cptRead = s'.cptWrite ∧
        r'.mem = overlay (bs.flatMap Buf.cells) s'.app.mem r.mem

namespace Capture

variable {E : Env} {s : Capture} {ht : Htable} {count : Nat} {array : Addr}

/-- After `PMPI_Waitall` an element holds `MPI_REQUEST_NULL` or what it held before. -/
theorem waitall_reqs {W : World} (p : App) (as : List Addr) {a : Addr} (ha : a ∈ as) :
    let r := pmpiWaitall W p (as.map p.reqs)
    (r.1.setReqs W .c as r.2).reqs a ∈ W.requestNull :: as.map p.reqs := by
  have hid : ∀ hs : List Handle, hs.map (W.encode .c) = hs := fun hs => List.map_id' hs
  have hlen : ∀ hs : List Handle, hs.length = as.length → ∀ m : Addr → Int,
      scatter m as (hs.map (W.encode .c)) a ∈ hs := by
    intro hs hl m
    rw [hid]
    exact scatter_mem as hs hl.ge ha
  unfold pmpiWaitall App.setReqs
  split
  · have hm := hlen ((as.map p.reqs).map fun _ => W.requestNull) (by simp)
      ((as.map p.reqs).foldl (complete W) p).reqs
    obtain ⟨x, -, hx⟩ := List.mem_map.1 hm
    exact List.mem_cons.2 (.inl hx.symm)
  · exact List.mem_cons_of_mem _ (hlen (as.map p.reqs) (by simp) (p.tick W).reqs)

/-- The call is `PMPI_Waitall` and nothing else. -/
theorem waitall_c_eq (hs : s.Ready E ht)
    (hk : ∀ h ∈ E.requestNull :: (slots .c array count).map s.app.reqs,
      s.registered E h = none) :
    Capture.step E s (.waitall .c count array) =
      some { s with app := effect E.toWorld s.app (.waitall .c count array) } := by
  have hmiss : ∀ a ∈ slots .c array count, ht.view E.hashPointer
      ((effect E.toWorld s.app (.waitall .c count array)).reqs a) = none := by
    intro a ha
    rw [← hs.registered_eq]
    exact hk _ (waitall_reqs s.app (slots .c array count) ha)
  show drain E { s with app := effect E.toWorld s.app (.waitall .c count array) }
    (fun x => (slots .c array count).foldlM (fun x a => settle E.hashPointer (writeInFile E)
      ((effect E.toWorld s.app (.waitall .c count array)).reqs a) a x) x) = _
  unfold drain
  rw [if_pos hs.rank.symm, hs.table]
  simp only [Option.bind_eq_bind, Option.bind_some]
  rw [settles_miss (x := (_, ht)) (slots .c array count) hmiss]
  rfl

end Capture

variable {E : Env} {s : Capture} {ht : Htable} {count : Nat} {array : Addr} {mem : Mem}
  {reqs : Addr → Int} {dir : Dir} {evs : List Event}

/-- The Fortran `mpi_waitall_` looks up the addresses it was given. -/
theorem waited_fortran (hs : s.Ready E ht) (hF : E.FilesOk) (ha : s.activeDump ≠ some 0) :
    Waited E s .fortran count array := by
  have hstep := Capture.step_eq (c := .waitall .fortran count array) hs hF rfl trivial
  have hready := hs.step (c := .waitall .fortran count array) trivial
    (dumped E.toWorld (ht.view E.hashPointer) (.waitall .fortran count array))
  rw [Capture.kept_of_active ha] at hstep
  have hview : ∀ a, (ht.after E.hashPointer (.waitall .fortran count array)).view E.hashPointer a =
      if a ∈ slots .fortran array count then none else ht.view E.hashPointer a := fun a =>
    congrFun (view_after hs.sound (.waitall .fortran count array)) a
  refine ⟨_, hstep, ?_⟩
  simp only [hs.registered_eq, hready.registered_eq]
  refine ⟨rfl, rfl, hview, fun a has b => ?_, fun E' r hr hF' hread hleft hag => ?_⟩
  · have hv := hview a
    rw [if_pos has] at hv
    rw [Capture.step_eq (c := .irecv .fortran b worldComm a) hready hF rfl hv]
    rfl
  · have hd : dumped E.toWorld (ht.view E.hashPointer) (.waitall .fortran count array) =
        dumped E.toWorld (r.requestHtab.view E'.hashPointer) (.waitall .fortran count array) :=
      List.filterMap_congr fun a ha => (hag a ha).symm
    have hl := lockstep hs hF hr hF' (c := .waitall .fortran count array) rfl rfl ha hread trivial
      trivial hd hstep hleft
    refine ⟨_, hl, ?_, rfl⟩
    rw [Replay.loaded_cptRead, Capture.logged_cptWrite]
    exact congrArg (· + _) hread

/-- **The C `MPI_Waitall`.** It does its part exactly if it has none: no element of the
array has a registered receive. -/
theorem waitall_iff (hr : E.mpireRank = some (E.rank worldComm))
    (hs : Capture.exec E mem reqs dir evs = some s)
    (hk : ∀ h ∈ E.requestNull :: (slots .c array count).map s.app.reqs,
      s.registered E h = none) :
    Waited E s .c count array ↔ ∀ a ∈ slots .c array count, s.registered E a = none := by
  obtain ⟨ht, hs⟩ := Capture.exec_ready hr hs
  have hstep := Capture.waitall_c_eq hs hk
  constructor
  · -- the table has not changed, so what should have left it was not there
    rintro ⟨s', hs', -, -, htable, -⟩ a ha
    obtain rfl := Option.some.inj (hstep.symm.trans hs')
    have hgone := htable a
    rw [if_pos ha] at hgone
    exact hgone
  · intro hnone
    have hbs : (slots .c array count).filterMap (s.registered E) = [] :=
      List.filterMap_eq_nil_iff.2 hnone
    have hready := hs.set_app (effect E.toWorld s.app (.waitall .c count array))
    refine ⟨_, hstep, ?_⟩
    simp only [hbs]
    refine ⟨rfl, rfl, fun a => ?_, fun a ha b => ?_, fun E' r hr hF' hread _ hag => ?_⟩
    · split
      · exact hnone a ‹_›
      · rfl
    · have hv := hnone a ha
      rw [hs.registered_eq] at hv
      show (Capture.irecv .c E _ b worldComm a).isSome
      rw [Capture.irecv_eq hready .c hs.rank.symm hv]
      rfl
    · have hbs' : (slots .c array count).filterMap (r.requestHtab.view E'.hashPointer) = [] :=
        List.filterMap_eq_nil_iff.2 fun a ha => (hag a ha).trans (hnone a ha)
      have hd := Replay.step_eq (m := s.app.mem) hr hF' (c := .waitall .c count array) rfl trivial
      simp only [dumped, hbs', Replay.loaded_nil] at hd
      refine ⟨_, hd fun i hi => absurd hi (Nat.not_lt_zero i), hread, ?_⟩
      rw [List.flatMap_nil, overlay_nil]

/-- A send and an inactive request; a receive is outstanding elsewhere. -/
theorem waitall_noReceives :
    Waited fourProcesses ((Capture.exec fourProcesses (fun _ => 0) (fun _ => 0)
      ⟨none, fun _ => none⟩ [.call (.irecv .c ⟨0, 1, .byte⟩ worldComm 200),
        .call (.isend .c 100)]).get (by decide)) .c 2 100 :=
  (waitall_iff rfl (Option.some_get (by decide)).symm (by decide)).2 (by decide)

/-- One receive, posted on the element it is waited for through. -/
theorem waitall_receive :
    let s := (Capture.exec fourProcesses (fun _ => 0) (fun _ => 0) ⟨none, fun _ => none⟩
      [.call (.irecv .c ⟨0, 1, .byte⟩ worldComm 100)]).get (by decide)
    (s.activeDump ≠ some 0 ∧
      (s.app.ops.lookup (s.app.reqs 100)).map Op.request = some 100 ∧
      ∀ h ∈ fourProcesses.requestNull :: (slots .c 100 1).map s.app.reqs,
        s.registered fourProcesses h = none) ∧
      ¬ Waited fourProcesses s .c 1 100 := by
  intro s
  refine ⟨by decide, ?_⟩
  rintro ⟨s', hs', hcount, -⟩
  have hzero : (Capture.step fourProcesses s (.waitall .c 1 100)).map Capture.cptWrite = some 0 := by
    decide
  rw [hs'] at hzero
  rw [Option.some.inj hzero] at hcount
  revert hcount
  decide

end MPIre

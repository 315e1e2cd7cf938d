import MPIre.CaptureRun
/-
# The log is the list of what came in

`Chronicle` is what the log is for: the application and MPI alone, with the list of
the results that came in while the flag was on. `chronicled` says that a run of the
capture library writes exactly this list, in order, into the files 0, 1, 2, …

* `log_chronological`: Fortran runs with arbitrary changes of `MPIRE_ACTIVE_DUMP`.
  The element total of `mpi_alltoall_` is an `int`; past `INT_MAX` the record is not
  the payload (`log_overflow`).
* `log_handles`: C runs in which request handles are copied between variables. The
  table is keyed by the variable, so a receive waited for through another variable
  goes by unseen (`log_moved_handle`).
-/
namespace MPIre
open Gather Run

structure Chronicle where
  app : App
  active : Int
  log : List (List Byte)

namespace Chronicle

/-- The flag only decides whether the results of a call are listed. -/
def event (W : World) (x : Chronicle) : Event → Chronicle
  | .call c =>
    let app := effect W x.app c
    { x with
      app := app
      log := x.log ++ if x.active = 0 then [] else (inbound W x.app c).map (gather app.mem) }
  | .compute f => { x with app := { x.app with mem := f x.app.mem } }
  | .setenv v => { x with active := v }
  | .copy dst src => { x with app := x.app.setReq dst (x.app.reqs src) }

/-- Right after `MPI_Init`. -/
def start (E : Env) (mem : Mem) (reqs : Addr → Int) : Chronicle where
  app := ⟨mem, reqs, ∅, 1, E.code 0⟩
  active := E.mpireActiveDump.getD 1
  log := []

/-- The same as a machine that never stops. -/
def step (W : World) (x : Chronicle) (ev : Event) : Option Chronicle := some (x.event W ev)

theorem run_step (W : World) (x : Chronicle) (evs : List Event) :
    run (step W) x evs = some (evs.foldl (event W) x) := by
  induction evs generalizing x with
  | nil => rfl
  | cons ev evs ih => exact ih (x.event W ev)

end Chronicle

/-- What a call has to meet for its record, if it has one, to be what came in. -/
def Event.InOrder (W : World) (x : Chronicle) : Event → Prop
  | .call c => (x.active ≠ 0 → c.Fits W) ∧ c.Disciplined W x.app
  | _ => True

def Event.Packed (W : World) : Event → Prop
  | .call c => c.Packed W
  | _ => True

instance (W : World) (x : Chronicle) : ∀ ev : Event, Decidable (ev.InOrder W x)
  | .call c => inferInstanceAs (Decidable ((x.active ≠ 0 → c.Fits W) ∧ c.Disciplined W x.app))
  | .compute _ | .setenv _ | .copy .. => isTrue trivial

/-- The application from `MPI_Init` on. -/
def Capture.exec (E : Env) (mem : Mem) (reqs : Addr → Int) (dir : Dir) (evs : List Event) :
    Option Capture :=
  (Capture.mpiInit E (Capture.boot E mem reqs dir)).bind fun s => run (Capture.event E) s evs

/-- At every point of the run the log files 0 to `cpt_write - 1` were written once
each, and file `i` starts with the `i`-th result of the chronicle. -/
def Chronicled (E : Env) (mem : Mem) (reqs : Addr → Int) (dir : Dir) (evs : List Event) : Prop :=
  ∀ pre, pre <+: evs → ∃ s, Capture.exec E mem reqs dir pre = some s ∧
    let log := (pre.foldl (Chronicle.event E.toWorld) (Chronicle.start E mem reqs)).log
    s.cptWrite = log.length ∧
    s.hist.map Transfer.index = List.range s.cptWrite ∧
    ∀ i, s.dir.record i =
      if h : i < log.length then some (Journal.overwrite ((dir.record i).getD []) log[i])
      else dir.record i

variable {E : Env} {mem : Mem} {reqs : Addr → Int} {dir : Dir} {evs : List Event}

theorem Capture.exec_eq (hE : E.Captures) (evs : List Event) :
    Capture.exec E mem reqs dir evs =
      run (Capture.event E) (Capture.start E mem reqs dir) evs := by
  unfold Capture.exec
  rw [Capture.mpiInit_boot hE]
  rfl

/-- Wherever a run of the captured process arrives, the library is ready. -/
theorem Capture.exec_ready (hr : E.mpireRank = some (E.rank worldComm)) {s : Capture}
    (h : Capture.exec E mem reqs dir evs = some s) : ∃ ht, s.Ready E ht := by
  obtain ⟨s₀, h₀, h⟩ := Option.bind_eq_some_iff.1 h
  obtain ⟨-, rfl⟩ := Capture.initMPIre_chosen hr h₀
  exact Capture.run_ready hr (Capture.start_ready mem reqs dir) h

/-- The library has written down the chronicle. -/
structure Capture.Follows (E : Env) (dir : Dir) (x : Chronicle) (s : Capture) : Prop where
  app : s.app = x.app
  active : s.activeDump = some x.active
  count : s.cptWrite = x.log.length
  record : s.dir.record = Journal.append dir.record 0 x.log
  index : s.hist.map Transfer.index = List.range s.cptWrite
  live : ∃ ht, s.Live E ht

theorem Capture.start_follows (mem : Mem) (reqs : Addr → Int) (dir : Dir) :
    Capture.Follows E dir (Chronicle.start E mem reqs) (Capture.start E mem reqs dir) :=
  ⟨rfl, rfl, rfl, rfl, rfl, [], Capture.start_live mem reqs dir⟩

/-- The dumps of one call extend the log by the payloads of these buffers. -/
theorem Capture.logged_follows {s : Capture} {x : Chronicle} {dir : Dir} (bs : List Buf)
    (hc : s.cptWrite = x.log.length) (hr : s.dir.record = Journal.append dir.record 0 x.log)
    (hi : s.hist.map Transfer.index = List.range s.cptWrite) :
    let log := x.log ++ bs.map fun b => gather s.app.mem b.cells
    (s.logged bs).cptWrite = log.length ∧
      (s.logged bs).dir.record = Journal.append dir.record 0 log ∧
      (s.logged bs).hist.map Transfer.index = List.range (s.logged bs).cptWrite := by
  refine ⟨?_, ?_, ?_⟩
  · simp [hc]
  · show Journal.append s.dir.record s.cptWrite _ = _
    rw [Journal.append_append, ← hr, Nat.zero_add, ← hc]
  · show (s.hist ++ transfers s.cptWrite bs).map Transfer.index = List.range (s.cptWrite + bs.length)
    rw [List.map_append, hi, transfers_index, List.range_eq_range', List.range_eq_range',
      ← List.range'_append_1, Nat.zero_add]

/-- The step lemma: an orderly call adds its results to the log and nothing else. -/
theorem Capture.follow (hE : E.Captures) {x : Chronicle} {s : Capture}
    (hf : Capture.Follows E dir x s) {ev : Event} (hc : ev.captured) (hp : ev.Packed E.toWorld)
    (ho : ev.InOrder E.toWorld x) :
    ∃ s', Capture.event E s ev = some s' ∧ Capture.Follows E dir (x.event E.toWorld ev) s' := by
  obtain ⟨happ, hact, hcount, hrec, hidx, ht, hlive⟩ := hf
  cases ev with
  | compute f =>
    refine ⟨_, rfl, ?_, hact, hcount, hrec, hidx, ht, hlive.ready.set_app _, hlive.tracked,
      hlive.timely⟩
    simp only [Chronicle.event, happ]
  | copy dst src =>
    refine ⟨_, rfl, ?_, hact, hcount, hrec, hidx, ht, hlive.ready.set_app _, hlive.tracked,
      hlive.timely⟩
    simp only [Chronicle.event, happ]
  | setenv v => exact ⟨_, rfl, happ, rfl, hcount, hrec, hidx, ht, hlive.setenv v⟩
  | call c =>
    obtain ⟨hfit, hd⟩ := ho
    rw [← happ] at hd
    have hu := unregistered_of_tracked hlive.tracked hd
    have hstep := Capture.step_eq hlive.ready hE.files hc hu
    have hok : (Event.call c).Disciplined E.toWorld s.app := ⟨hc, hd⟩
    obtain ⟨s', ht', hs', hlive'⟩ := Capture.event_live hE hlive hok
    have hs' : Capture.step E s c = some s' := hs'
    obtain rfl := Option.some.inj (hstep.symm.trans hs')
    have hlog := Capture.logged_follows (s := { s with
      app := effect E.toWorld s.app c
      requestHtab := some (ht.after E.hashPointer c) })
      (s.kept (dumped E.toWorld (ht.view E.hashPointer) c)) hcount hrec hidx
    have hsame : (s.kept (dumped E.toWorld (ht.view E.hashPointer) c)).map
        (fun b => gather (effect E.toWorld s.app c).mem b.cells) =
          if x.active = 0 then []
          else (inbound E.toWorld x.app c).map (gather (effect E.toWorld x.app c).mem) := by
      by_cases h0 : x.active = 0
      · rw [if_pos h0, Capture.kept_of_off (by rw [hact, h0])]
        rfl
      · -- what is dumped is what came in
        have hcells := dumped_cells (hlive.tracked.agrees hd (since_zero c)) hp (hfit h0)
        rw [if_neg h0, Capture.kept_of_active (by rw [hact]; exact fun h => h0 (Option.some.inj h)),
          ← happ, ← hcells, List.map_map]
        rfl
    simp only [hsame] at hlog
    exact ⟨_, hs', congrArg (effect E.toWorld · c) happ, hact, hlog.1, hlog.2.1, hlog.2.2, ht', hlive'⟩

/-- The run lemma: a run of captured calls, each in order, writes the chronicle. -/
theorem chronicled (hE : E.Captures) (hc : ∀ ev ∈ evs, ev.captured ∧ ev.Packed E.toWorld)
    (ho : Along (Chronicle.step E.toWorld) (fun x ev => ev.InOrder E.toWorld x)
      (Chronicle.start E mem reqs) evs) :
    Chronicled E mem reqs dir evs := by
  rintro pre ⟨post, rfl⟩
  have hrun := Chronicle.run_step E.toWorld (Chronicle.start E mem reqs) pre
  have hok : Along (Chronicle.step E.toWorld) (fun x ev =>
      (ev.captured = true ∧ ev.Packed E.toWorld) ∧ ev.InOrder E.toWorld x)
      (Chronicle.start E mem reqs) pre :=
    along_and_mem (fun ev hev => hc ev (List.mem_append_left _ hev)) ho.left
  obtain ⟨s, hs, hf⟩ := run_sim (F := fun _ => True) (fun _ _ _ _ _ _ => trivial)
    (fun x s ev x' hf hok hx _ => by
      cases hx
      exact Capture.follow hE hf hok.1.1 hok.1.2 hok.2)
    (Capture.start_follows mem reqs dir) hok hrun trivial
  refine ⟨s, (Capture.exec_eq hE pre).trans hs, hf.count, hf.index, fun i => ?_⟩
  rw [hf.record]
  split
  · rename_i hi
    have h := Journal.append_get (pre.foldl (Chronicle.event E.toWorld)
      (Chronicle.start E mem reqs)).log dir.record 0 i hi
    rwa [Nat.zero_add] at h
  · rename_i hi
    exact Journal.append_after (by omega) _

/-! ## Fortran runs with the flag changing -/

/-- `mpi_irecv_`, `mpi_recv_`, `mpi_wait_`, `mpi_waitall_`, `mpi_bcast_`, `mpi_alltoall_`,
`mpi_allreduce_` and `mpi_reduce_` on `MPI_COMM_WORLD`. -/
def Call.fortranInbound : Call → Bool
  | .irecv l _ comm _ | .recv l _ comm | .bcast l _ _ comm | .alltoall l _ comm
  | .allreduce l _ comm | .reduce l _ _ comm => l == .fortran && comm == worldComm
  | .wait l _ | .waitall l _ _ => l == .fortran
  | _ => false

/-- Such a call, the application's computation, or a change of the flag. -/
def Event.fortranInbound : Event → Bool
  | .call c => c.fortranInbound
  | .compute _ | .setenv _ => true
  | .copy .. => false

theorem captured_of_fortranInbound {ev : Event} (h : ev.fortranInbound) (W : World) :
    ev.captured ∧ ev.Packed W := by
  cases ev with
  | call c =>
    cases c with
    | irecv l b comm a => exact ⟨(Bool.and_eq_true _ _ ▸ h).2, trivial⟩
    | recv l b comm => exact ⟨(Bool.and_eq_true _ _ ▸ h).2, trivial⟩
    | bcast l b root comm => exact ⟨(Bool.and_eq_true _ _ ▸ h).2, trivial⟩
    | alltoall l b comm => exact ⟨(Bool.and_eq_true _ _ ▸ h).2, trivial⟩
    | allreduce l b comm => exact ⟨(Bool.and_eq_true _ _ ▸ h).2, trivial⟩
    | reduce l b root comm => exact ⟨(Bool.and_eq_true _ _ ▸ h).2, trivial⟩
    | waitall l count array => exact ⟨h, trivial⟩
    | wait l a => exact ⟨rfl, trivial⟩
    | _ => cases h
  | _ => exact ⟨rfl, trivial⟩

/-- **The log of a Fortran run.** It is the chronicle, and the table depends on the
calls alone: runs that differ in the flag changes agree on it. -/
theorem log_chronological (hE : E.Captures) (hf : ∀ ev ∈ evs, ev.fortranInbound)
    (ho : Along (Chronicle.step E.toWorld) (fun x ev => ev.InOrder E.toWorld x)
      (Chronicle.start E mem reqs) evs) :
    Chronicled E mem reqs dir evs ∧
      ∀ evs' : List Event, (∀ ev ∈ evs', ev.fortranInbound) →
        evs'.filterMap Event.call? = evs.filterMap Event.call? →
          ∀ s s', Capture.exec E mem reqs dir evs = some s →
            Capture.exec E mem reqs dir evs' = some s' → s'.requestHtab = s.requestHtab := by
  refine ⟨chronicled hE (fun ev hev => captured_of_fortranInbound (hf ev hev) _) ho, ?_⟩
  intro evs' hf' hcalls s s' hs hs'
  rw [Capture.exec_eq hE] at hs hs'
  have hready := Capture.start_ready (E := E) mem reqs dir
  have h := Capture.run_table hE.files
    (fun ev hev => (captured_of_fortranInbound (hf ev hev) E.toWorld).1) hready hs
  have h' := Capture.run_table hE.files
    (fun ev hev => (captured_of_fortranInbound (hf' ev hev) E.toWorld).1) hready hs'
  rw [h'.table, h.table, hcalls]

/-- A receive posted with the flag on and completed with it off, one the other way
round, and a wait for both. -/
def flagChanges : List Event :=
  [.call (.irecv .fortran ⟨0, 2, .byte⟩ worldComm 100), .setenv 0,
    .call (.irecv .fortran ⟨2, 2, .byte⟩ worldComm 104), .call (.recv .fortran ⟨4, 1, .byte⟩ worldComm),
    .call (.wait .fortran 100), .setenv 1, .call (.waitall .fortran 2 100),
    .call (.reduce .fortran ⟨5, 1, .byte⟩ 0 worldComm)]

theorem log_flagChanges :
    Chronicled fourProcesses (fun _ => 0) (fun _ => 0) ⟨none, fun _ => none⟩ flagChanges ∧
      ∀ evs' : List Event, (∀ ev ∈ evs', ev.fortranInbound) →
        evs'.filterMap Event.call? = flagChanges.filterMap Event.call? →
          ∀ s s', Capture.exec fourProcesses (fun _ => 0) (fun _ => 0) ⟨none, fun _ => none⟩
              flagChanges = some s →
            Capture.exec fourProcesses (fun _ => 0) (fun _ => 0) ⟨none, fun _ => none⟩
                evs' = some s' →
              s'.requestHtab = s.requestHtab :=
  log_chronological fourProcesses_captures (by decide) (by decide)

/-- The record of 2^30 bytes from each of four processes is empty. -/
theorem log_overflow :
    ¬ Chronicled fourProcesses (fun _ => 0) (fun _ => 0) ⟨none, fun _ => none⟩
      [.call (.alltoall .fortran ⟨0, 1073741824, .byte⟩ worldComm)] := by
  intro h
  obtain ⟨s, hs, hcount, -, hfile⟩ := h _ (List.prefix_refl _)
  rw [Capture.exec_eq fourProcesses_captures, run_single] at hs
  have hready : (Capture.start fourProcesses (fun _ => 0) (fun _ => 0) ⟨none, fun _ => none⟩).Ready
      fourProcesses [] := Capture.start_ready _ _ _
  have hstep := Capture.step_eq hready fourProcesses_captures.files
    (c := .alltoall .fortran ⟨0, 1073741824, .byte⟩ worldComm) rfl trivial
  have he := Option.some.inj (hstep.symm.trans hs)
  have hempty : s.dir.record 0 = some [] := by
    rw [← he]
    rfl
  have hlt : 0 < s.cptWrite := by
    rw [← he]
    exact Nat.zero_lt_one
  rw [hcount] at hlt
  have h0 := hfile 0
  rw [hempty, dif_pos hlt] at h0
  have hlen := congrArg List.length (Option.some.inj h0)
  have hpos : 0 < (Buf.cells ⟨0, 1073741824 * 4, .byte⟩).length :=
    List.length_pos_of_mem (buf_mem_cells (b := ⟨0, 1073741824 * 4, .byte⟩) (by decide) (by decide))
  simp [Chronicle.event, Chronicle.start, fourProcesses, Env.plain, inbound, Journal.overwrite] at hlen
  rw [hlen] at hpos
  exact absurd hpos (by simp)

/-! ## Handles that move -/

/-- `MPI_Isend`, `MPI_Irecv` and `MPI_Wait`, copies between request variables, and the
application's computation. -/
def Event.handles : Event → Bool
  | .call (.isend l _) => l == .c
  | .call (.irecv l _ comm _) => l == .c && comm == worldComm
  | .call (.wait l _) => l == .c
  | .compute _ | .copy .. => true
  | _ => false

/-- A wait is for a pending operation or an inactive handle. -/
def Event.Valid (W : World) (p : App) : Event → Prop
  | .call (.wait _ a) => p.reqs a ∈ p.ops ∨ p.reqs a = W.requestNull
  | _ => True

instance (W : World) (p : App) (ev : Event) : Decidable (ev.Valid W p) := by
  unfold Event.Valid
  split <;> infer_instance

theorem captured_of_handles {ev : Event} (h : ev.handles) (W : World) :
    ev.captured ∧ ev.Packed W := by
  cases ev with
  | call c =>
    cases c with
    | irecv l b comm a => exact ⟨(Bool.and_eq_true _ _ ▸ h).2, trivial⟩
    | isend l a | wait l a => exact ⟨rfl, trivial⟩
    | _ => cases h
  | _ => exact ⟨rfl, trivial⟩

/-- **Requests by their variables.** Handles may move as long as every post of a receive
finds its variable free of pending receives and every wait goes through the variable
the receive was posted on. -/
theorem log_handles (hE : E.Captures) (hh : ∀ ev ∈ evs, ev.handles)
    (ho : Along (Chronicle.step E.toWorld) (fun x ev => ev.InOrder E.toWorld x)
      (Chronicle.start E mem reqs) evs) :
    Chronicled E mem reqs dir evs :=
  chronicled hE (fun ev hev => captured_of_handles (hh ev hev) _) ho

/-- A send posted and waited for through two variables, a receive through one. -/
def movedSend : List Event :=
  [.call (.isend .c 100), .copy 108 100, .call (.irecv .c ⟨0, 2, .byte⟩ worldComm 100),
    .call (.wait .c 108), .call (.wait .c 100)]

theorem log_movedSend :
    Chronicled fourProcesses (fun _ => 0) (fun _ => 0) ⟨none, fun _ => none⟩ movedSend :=
  log_handles fourProcesses_captures (by decide) (by decide)

/-- A receive waited for through a copy of its handle. -/
def movedReceive : List Event :=
  [.call (.irecv .c ⟨0, 2, .byte⟩ worldComm 100), .copy 108 100, .call (.wait .c 108)]

/-- The wait completes the receive, and no record is written. -/
theorem log_moved_handle :
    (∀ ev ∈ movedReceive, ev.handles) ∧
      Along (Chronicle.step fourProcesses.toWorld)
        (fun x ev => ev.Valid fourProcesses.toWorld x.app)
        (Chronicle.start fourProcesses (fun _ => 0) (fun _ => 0)) movedReceive ∧
      ¬ Chronicled fourProcesses (fun _ => 0) (fun _ => 0) ⟨none, fun _ => none⟩ movedReceive := by
  refine ⟨by decide, by decide, fun h => ?_⟩
  obtain ⟨s, hs, hcount, -⟩ := h _ (List.prefix_refl _)
  have hnone : (Capture.exec fourProcesses (fun _ => 0) (fun _ => 0) ⟨none, fun _ => none⟩
      movedReceive).map Capture.cptWrite = some 0 := by decide
  rw [hs] at hnone
  rw [Option.some.inj hnone] at hcount
  exact absurd hcount (by decide)

end MPIre

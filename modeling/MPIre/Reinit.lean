import MPIre.ReplayRun
/-
# Initialising the replay library again

A replay may call `MPI_Init` several times, to run its region again. A second call
only does `cpt_read = 0` (replay:85-88, 101-104): the table of outstanding receives
keeps what it holds. So the library behaves as a fresh one exactly if no receive was
outstanding (`reinit_iff`); otherwise posting it again ends the replay
(`reinit_outstanding`).

The fresh library is a new process over the same log, with the same memory, that
meets the same file accesses from here on (`Env.after`).
-/
namespace MPIre
open Gather Run

/-- The environment from the `k`-th record access on. -/
def Env.after (E : Env) (k : Nat) : Env := { E with access := fun n => E.access (k + n) }

namespace Replay

/-- The call reaches a hook of the library. -/
def Hook.hooked : Hook → Bool
  | .call (.reduce l ..) => l == .c
  | _ => true

/-- The memory, the counter and the records loaded since access `k`. -/
def seen (k : Nat) (r : Replay) : Mem × Nat × List Transfer := (r.mem, r.cptRead, r.hist.drop k)

/-- After one more `MPI_Init`, no sequence of calls tells the library from a fresh one. -/
def BehavesFresh (E : Env) (r : Replay) : Prop :=
  ∃ r' f, mpiInit E r = some r' ∧
    mpiInit (E.after r.hist.length) (boot r.mem r.dir) = some f ∧
    ∀ hs : List Hook, (∀ h ∈ hs, h.hooked) →
      (run (hook E) r' hs).map (seen r.hist.length) =
        (run (hook (E.after r.hist.length)) f hs).map (seen 0)

/-- Two libraries that differ in the past of their log accesses alone. -/
structure Twin (past : List Transfer) (r f : Replay) : Prop where
  mem : r.mem = f.mem
  cptRead : r.cptRead = f.cptRead
  rank : r.mpireRank = f.mpireRank
  size : r.mpireSize = f.mpireSize
  table : r.requestHtab = f.requestHtab
  dir : r.dir = f.dir
  hist : r.hist = past ++ f.hist
  initialized : r.initialized = true
  initialized' : f.initialized = true

variable {E : Env} {past : List Transfer} {r f : Replay}

@[simp] theorem hook_call (c : Call) : hook E r (.call c) = step E r c := rfl

/-- An exit happens in one if and only if it happens in the other. -/
theorem BehavesFresh.exits (h : BehavesFresh E r) (hs : List Hook) (hh : ∀ h ∈ hs, h.hooked) :
    ((mpiInit E r).bind fun r' => run (hook E) r' hs).isSome =
      ((mpiInit (E.after r.hist.length) (boot r.mem r.dir)).bind fun f =>
        run (hook (E.after r.hist.length)) f hs).isSome := by
  obtain ⟨r', f, hr', hf, hsame⟩ := h
  have hs := congrArg Option.isSome (hsame hs hh)
  rw [Option.isSome_map, Option.isSome_map] at hs
  rw [hr', hf]
  exact hs

theorem Twin.seen (h : Twin past r f) : r.seen past.length = f.seen 0 := by
  unfold Replay.seen
  rw [h.mem, h.cptRead, h.hist, List.drop_left, List.drop_zero]

/-- Both meet the same access and read the same record. -/
theorem twin_read (h : Twin past r f) (b : Buf) :
    Option.Rel (Twin past) (readInFile E r b) (readInFile (E.after past.length) f b) := by
  have ha : E.access r.hist.length = (E.after past.length).access f.hist.length := by
    rw [h.hist, List.length_append]
    rfl
  have ho : ∀ a, r.openCode a = f.openCode a := by
    intro a
    unfold openCode
    rw [h.dir, h.cptRead]
  simp only [readInFile, ha, ho]
  split
  · exact .none
  · refine .some ⟨?_, ?_, h.rank, h.size, h.table, h.dir, ?_, h.initialized, h.initialized'⟩
    · simp only [h.mem, h.dir, h.cptRead]
    · simp only [h.cptRead]
    · simp only [h.hist, h.cptRead, List.append_assoc]

theorem twin_related : Related E (E.after past.length) (Twin past) where
  hash := rfl
  table h := h.table.symm
  returned _ h :=
    ⟨h.mem, h.cptRead, h.rank, h.size, rfl, h.dir, h.hist, h.initialized, h.initialized'⟩
  answered _ h :=
    ⟨h.mem, h.cptRead, h.rank, h.size, h.table, h.dir, h.hist, h.initialized, h.initialized'⟩
  read b h := twin_read h b

/-- An action other than falling through to MPI keeps the twins together. -/
theorem twin_perform (h : Twin past r f) {act : Action} (ha : ∀ b, act ≠ .fallThrough b) :
    Option.Rel (Twin past) (perform E r act) (perform (E.after past.length) f act) := by
  cases act with
  | init =>
    show Option.Rel _ (mpiInit E r) (mpiInit _ f)
    unfold mpiInit
    rw [if_pos h.initialized, if_pos h.initialized']
    exact .some ⟨h.mem, rfl, h.rank, h.size, h.table, h.dir, h.hist, h.initialized,
      h.initialized'⟩
  | finalize =>
    exact .some ⟨h.mem, h.cptRead, h.rank, h.size, rfl, h.dir, h.hist, h.initialized,
      h.initialized'⟩
  | fallThrough b => exact absurd rfl (ha b)
  | answer out | receive load b | drain as | post b a | fault => exact twin_related.perform h rfl

theorem action_ne_fallThrough {i : Hook} (hi : i.hooked) (rank size : Int) (b : Buf) :
    i.action E rank size ≠ .fallThrough b := by
  cases i with
  | call c =>
    cases c with
    | alltoallv l recvbuf rc rd t comm =>
      cases l with
      | c => exact Action.noConfusion
      | fortran =>
        show alltoallvAction E size recvbuf rc rd t ≠ _
        unfold alltoallvAction
        split <;> exact Action.noConfusion
    | reduce l b root comm =>
      cases l with
      | c => exact Action.noConfusion
      | fortran => cases hi
    | _ => exact Action.noConfusion
  | _ => exact Action.noConfusion

/-- The action of a hook does not depend on file accesses. -/
theorem action_after (i : Hook) (k : Nat) (rank size : Int) :
    i.action (E.after k) rank size = i.action E rank size := by
  cases i with
  | call c =>
    cases c with
    | alltoallv l | reduce l => cases l <;> rfl
    | _ => rfl
  | _ => rfl

/-- Every hook keeps the twins together. -/
theorem twin_hook (h : Twin past r f) {i : Hook} (hi : i.hooked) :
    Option.Rel (Twin past) (hook E r i) (hook (E.after past.length) f i) := by
  rw [hook_eq, hook_eq, action_after, ← h.rank, ← h.size]
  exact twin_perform h fun b => action_ne_fallThrough hi _ _ b

theorem twin_run (h : Twin past r f) {hs : List Hook} (hh : ∀ i ∈ hs, i.hooked) :
    Option.Rel (Twin past) (run (hook E) r hs) (run (hook (E.after past.length)) f hs) :=
  run_rel (R := Twin past) (p := fun i : Hook => (i.hooked : Prop))
    (fun _ _ i h hi => twin_hook (i := i) h hi) h hh

theorem seen_run (h : Twin past r f) {hs : List Hook} (hh : ∀ i ∈ hs, i.hooked) :
    (run (hook E) r hs).map (seen past.length) =
      (run (hook (E.after past.length)) f hs).map (seen 0) := by
  have ht := twin_run (E := E) h hh
  revert ht
  cases run (hook E) r hs <;> cases run (hook (E.after past.length)) f hs <;> intro ht
  · rfl
  · cases ht
  · cases ht
  · cases ht with
    | some ht => exact congrArg some ht.seen

/-! ## The second `MPI_Init` -/

/-- What the first `MPI_Init` makes of a process. -/
theorem mpiInit_boot_some {mem : Mem} {dir : Dir} (h : mpiInit E (boot mem dir) = some r) :
    SiteOf r r ∧ r.requestHtab = [] ∧ r.dir = dir ∧ E.mpireRank = some r.mpireRank ∧
      (if E.nprocsOpens then dir.nprocs else none) = some r.mpireSize := by
  rcases mpiInit_some h with ⟨hi, -⟩ | ⟨-, x, n, hx, hn, rfl⟩
  · cases hi
  · exact ⟨⟨rfl, rfl, rfl, rfl, rfl⟩, rfl, rfl, hx, hn⟩

/-- A process that just came up where `r` is. -/
def fresh (E : Env) (r : Replay) : Replay :=
  { boot r.mem r.dir with
    now := 1
    ret := E.code 0
    mpireRank := r.mpireRank
    mpireSize := r.mpireSize
    inputPath := snprintf 1024 (E.mpireInputPath.getD (defaultPath r.mpireRank))
    initialized := true }

/-- Both `MPI_Init` return, and leave twins if nothing was outstanding. -/
theorem exec_inits {mem : Mem} {dir : Dir} {hs : List Hook} (h : exec E mem dir hs = some r) :
    mpiInit E r = some r.reinit ∧
      mpiInit (E.after r.hist.length) (boot r.mem r.dir) = some (fresh E r) ∧
      r.requestHtab.Sound E.hashPointer ∧
      (r.requestHtab = [] → Twin r.hist r.reinit (fresh E r)) := by
  obtain ⟨r₀, h₀, hrun⟩ := Option.bind_eq_some_iff.1 h
  obtain ⟨hsite, htable, hdir, hrank, hsize⟩ := mpiInit_boot_some h₀
  obtain ⟨hr, hsound⟩ := run_site hsite (htable ▸ Htable.sound_nil) hrun
  rw [← hr.rank] at hrank
  rw [← hr.size, ← hdir, ← hr.dir] at hsize
  refine ⟨if_pos hr.initialized, ?_, hsound, fun he => ?_⟩
  · have hrank : (E.after r.hist.length).mpireRank = some r.mpireRank := hrank
    have hsize : (if (E.after r.hist.length).nprocsOpens then (boot r.mem r.dir).dir.nprocs
        else none) = some r.mpireSize := hsize
    unfold mpiInit initMPIre
    rw [if_neg (by simp [boot]), hrank, hsize]
    rfl
  · exact ⟨rfl, rfl, rfl, rfl, he, rfl, (List.append_nil _).symm, hr.initialized, rfl⟩

/-- A second `MPI_Init` resets the library exactly if no receive is outstanding. -/
theorem reinit_iff {mem : Mem} {dir : Dir} {hs : List Hook} (h : exec E mem dir hs = some r) :
    BehavesFresh E r ↔ r.requestHtab = [] := by
  obtain ⟨hi, hf, hsound, htwin⟩ := exec_inits h
  constructor
  · rintro ⟨r', f, hr', hf', hsame⟩
    obtain rfl : r.reinit = r' := Option.some.inj (hi.symm.trans hr')
    obtain rfl : fresh E r = f := Option.some.inj (hf.symm.trans hf')
    by_contra hne
    -- the variable of an outstanding receive: only the old process refuses it
    obtain ⟨a, ha⟩ := exists_view hsound hne
    have hs := hsame [.call (.irecv .c ⟨0, 0, .byte⟩ worldComm a)] (by simp [Hook.hooked])
    have hexit : step E r.reinit (.irecv .c ⟨0, 0, .byte⟩ worldComm a) = none :=
      step_exit (s := r.reinit) ha
    have hpost : step (E.after r.hist.length) (fresh E r)
        (.irecv .c ⟨0, 0, .byte⟩ worldComm a) ≠ none := by
      intro h
      cases (irecv_eq (s := fresh E r) (E := E.after r.hist.length) (view_nil a)).symm.trans h
    rw [run_single, run_single, hook_call, hexit, Option.map_none, eq_comm,
      Option.map_eq_none_iff] at hs
    exact hpost hs
  · intro he
    exact ⟨_, _, hi, hf, fun hs hh => seen_run (htwin he) hh⟩

/-- One process that reads a log of records of one byte. -/
def oneByteLog : Dir := ⟨some 1, fun _ => some [7]⟩

def oneProcess : Env := Env.plain (fun _ => 0) (fun _ => 1) 0

/-- The receive was waited for. -/
theorem reinit_drained :
    BehavesFresh oneProcess ((exec oneProcess (fun _ => 0) oneByteLog
      [.call (.irecv .fortran ⟨0, 1, .byte⟩ worldComm 100), .call (.wait .fortran 100)]).get
        (by decide)) :=
  (reinit_iff (Option.some_get (by decide)).symm).2 (by decide)

/-- The receive is outstanding: the region run again stops at its first post. -/
theorem reinit_outstanding :
    ¬ BehavesFresh oneProcess ((exec oneProcess (fun _ => 0) oneByteLog
      [.call (.irecv .c ⟨0, 1, .byte⟩ worldComm 100)]).get (by decide)) := by
  intro h
  have he := h.exits [.call (.irecv .c ⟨0, 1, .byte⟩ worldComm 100)] (by decide)
  revert he
  decide

end Replay

end MPIre

import MPIre.Chronicle
import MPIre.ReplayRun
/-
# Failing file accesses

`write_in_file` tests the open with `fp < 0`, though MPI reports a failure by a
positive code, and the write not at all (capture:45-55). `read_in_file` tests the open
properly and the read not at all (replay:30-41). So a capture run never passes over a
failure exactly if there is none, and a replay exactly if no read fails before the
first open that does (`never_silent_iff`).

`Noted`: the history lists the accesses as the library met them, whatever they gave.
-/
namespace MPIre
open Gather Run

def Access.ok : Access := ⟨mpiSuccess, mpiSuccess⟩

namespace Capture

/-- Every index below the counter was opened and written, and is in the directory. -/
structure Recorded (s : Capture) : Prop where
  index : s.hist.map Transfer.index = List.range s.cptWrite
  access : ∀ t ∈ s.hist, t.access = .ok
  record : ∀ i < s.cptWrite, (s.dir.record i).isSome

/-- Wherever a run arrives under these accesses, what it dumped is recorded. -/
def NeverSilent (access : Nat → Access) : Prop :=
  ∀ (E : Env) mem reqs dir evs s, E.access = access → exec E mem reqs dir evs = some s → s.Recorded

structure Noted (E : Env) (s : Capture) : Prop where
  index : s.hist.map Transfer.index = List.range s.cptWrite
  access : s.hist.map Transfer.access = (List.range s.cptWrite).map E.access
  record : ∀ i < s.cptWrite, (E.access i).fopen = mpiSuccess → (s.dir.record i).isSome

variable {E : Env} {s s' : Capture}

theorem Noted.length (hs : s.Noted E) : s.hist.length = s.cptWrite := by
  have h := congrArg List.length hs.index
  rw [List.length_map, List.length_range] at h
  exact h

theorem writeInFile_noted {b : Buf} (hs : s.Noted E) (h : writeInFile E s b = some s') :
    s'.Noted E := by
  rcases writeInFile_some h with ⟨-, rfl⟩ | ⟨-, -, rfl⟩
  · exact hs
  · refine ⟨?_, ?_, fun i hi hopen => ?_⟩
    · show (s.hist ++ [_]).map Transfer.index = List.range (s.cptWrite + 1)
      rw [List.map_append, hs.index, List.range_succ]
      rfl
    · show (s.hist ++ [_]).map Transfer.access = (List.range (s.cptWrite + 1)).map E.access
      rw [List.map_append, hs.access, List.range_succ, List.map_append, ← hs.length]
      rfl
    · have hrec : ∀ record : Nat → Option (List Byte), (i ≠ s.cptWrite → record i = s.dir.record i) →
          (i = s.cptWrite → (record i).isSome) → (record i).isSome := by
        intro record hbefore hlast
        by_cases hi' : i = s.cptWrite
        · exact hlast hi'
        · have hlt : i < s.cptWrite := Nat.lt_of_le_of_ne (Nat.le_of_lt_succ hi) hi'
          rw [hbefore hi']
          exact hs.record i hlt hopen
      unfold wrote
      simp only [hs.length]
      split
      · refine hrec _ (fun hne => Journal.write_ne hne _) fun he => ?_
        subst he
        simp only [Journal.write_self, Option.isSome_some]
      · refine hrec _ (fun _ => rfl) fun he => ?_
        subst he
        contradiction

theorem event_noted {ev : Event} (hs : s.Noted E) (h : event E s ev = some s') : s'.Noted E := by
  cases ev with
  | compute f | setenv v | copy dst src =>
    cases h
    exact ⟨hs.index, hs.access, hs.record⟩
  | call c =>
    refine step_keeps (E := E) (P := Noted E) (fun _ _ _ => writeInFile_noted)
      (fun s app ht hs => ⟨hs.index, hs.access, hs.record⟩) (fun s s' hs hi => ?_) hs h
    rcases initMPIre_some hi with ⟨r, -, ⟨-, -, rfl⟩ | ⟨-, rfl⟩⟩
    · exact ⟨hs.index, hs.access, hs.record⟩
    · exact ⟨hs.index, hs.access, hs.record⟩

theorem exec_noted {mem : Mem} {reqs : Addr → Int} {dir : Dir} {evs : List Event}
    (h : exec E mem reqs dir evs = some s) : s.Noted E := by
  obtain ⟨s₀, h₀, h⟩ := Option.bind_eq_some_iff.1 h
  have hboot : (boot E mem reqs dir).Noted E := ⟨rfl, rfl, fun i hi => absurd hi (Nat.not_lt_zero i)⟩
  have h₀ : event E (boot E mem reqs dir) (.call (.init .c)) = some s₀ := h₀
  exact run_safe (I := Noted E) (fun _ _ _ hs _ => event_noted hs) (event_noted hboot h₀)
    (along_true s₀ evs) h

/-- One run: its dumps are recorded exactly if no access it met failed. -/
theorem Noted.recorded_iff (hs : s.Noted E) : s.Recorded ↔ ∀ i < s.cptWrite, E.access i = .ok := by
  constructor
  · intro h i hi
    have hm : E.access i ∈ s.hist.map Transfer.access := by
      rw [hs.access]
      exact List.mem_map_of_mem (List.mem_range.2 hi)
    obtain ⟨t, ht, hti⟩ := List.mem_map.1 hm
    rw [← hti, h.access t ht]
  · intro h
    refine ⟨hs.index, fun t ht => ?_, fun i hi => hs.record i hi (by rw [h i hi]; rfl)⟩
    have hm := List.mem_map_of_mem (f := Transfer.access) ht
    rw [hs.access] at hm
    obtain ⟨i, hi, hti⟩ := List.mem_map.1 hm
    rw [← hti, h i (List.mem_range.1 hi)]

/-- Failures of the positive kind never stop a run: `n` receives make `n` records. -/
theorem recvs_run (hn : ∀ n, 0 ≤ (E.access n).fopen) (n : Nat) {s : Capture}
    (hr : s.mpireRank = E.rank worldComm) (ha : s.activeDump = some 1) :
    ∃ s', run (event E) s (List.replicate n (.call (.recv .c ⟨0, 1, .byte⟩ worldComm))) = some s' ∧
      s'.cptWrite = s.cptWrite + n := by
  induction n generalizing s with
  | zero => exact ⟨s, rfl, rfl⟩
  | succ n ih =>
    have hw : event E s (.call (.recv .c ⟨0, 1, .byte⟩ worldComm)) =
        some (wrote E { s with app := pmpiReceive E.toWorld s.app (Buf.cells ⟨0, 1, .byte⟩) }
          ⟨0, 1, .byte⟩) := by
      have hpos := Int.not_lt.2 (hn s.hist.length)
      show receive E s _ (decide (E.rank worldComm = s.mpireRank)) ⟨0, 1, .byte⟩ = _
      unfold receive writeInFile
      simp only [hr, decide_true, if_true, ha, one_ne_zero, if_false, hpos]
      rfl
    obtain ⟨s', hrun, hcount⟩ := ih (s := wrote E
      { s with app := pmpiReceive E.toWorld s.app (Buf.cells ⟨0, 1, .byte⟩) } ⟨0, 1, .byte⟩) hr ha
    refine ⟨s', by rw [List.replicate_succ, run_cons, hw]; exact hrun, ?_⟩
    rw [hcount]
    show s.cptWrite + 1 + n = _
    omega

end Capture

namespace Replay

/-- Every record that was consumed was opened and read. -/
def Loaded (r : Replay) : Prop := ∀ t ∈ r.hist, t.access = .ok

/-- Wherever a replay arrives under these accesses, what it consumed is loaded. -/
def NeverSilent (access : Nat → Access) : Prop :=
  ∀ (E : Env) mem dir hs r, E.access = access → exec E mem dir hs = some r → r.Loaded

structure Noted (E : Env) (r : Replay) : Prop where
  access : r.hist.map Transfer.access =
    (List.range r.hist.length).map fun i => ⟨mpiSuccess, (E.access i).xfer⟩
  opened : ∀ i < r.hist.length, (E.access i).fopen = mpiSuccess

variable {E : Env} {r r' : Replay}

theorem readInFile_noted {b : Buf} (hr : r.Noted E) (h : readInFile E r b = some r') :
    r'.Noted E := by
  obtain ⟨hopen, rfl⟩ := readInFile_some h
  have hlast : (E.access r.hist.length).fopen = mpiSuccess := by
    unfold openCode at hopen
    split at hopen
    · cases hopen
    · exact hopen
  refine ⟨?_, fun i hi => ?_⟩
  · simp only [List.map_append, List.length_append, List.length_singleton, List.range_succ,
      hr.access]
    rfl
  · simp only [List.length_append, List.length_singleton] at hi
    by_cases he : i = r.hist.length
    · rw [he, hlast]
    · exact hr.opened i (by omega)

theorem hook_noted {i : Hook} (hr : r.Noted E) (h : hook E r i = some r') : r'.Noted E := by
  refine hook_keeps (E := E) (P := Noted E) (fun s mem now ret out ht hs => ⟨hs.access, hs.opened⟩)
    (fun _ _ _ => readInFile_noted) (fun s s' hs hi => ?_) hr h
  rcases mpiInit_some hi with ⟨-, rfl⟩ | ⟨-, r, n, -, -, rfl⟩
  · exact ⟨hs.access, hs.opened⟩
  · exact ⟨hs.access, hs.opened⟩

theorem exec_noted {mem : Mem} {dir : Dir} {hs : List Hook} (h : exec E mem dir hs = some r) :
    r.Noted E := by
  obtain ⟨r₀, h₀, h⟩ := Option.bind_eq_some_iff.1 h
  have hboot : (boot mem dir).Noted E := ⟨rfl, fun i hi => absurd hi (Nat.not_lt_zero i)⟩
  have h₀ : hook E (boot mem dir) (.call (.init .c)) = some r₀ := h₀
  exact run_safe (I := Noted E) (fun _ _ _ hr _ => hook_noted hr) (hook_noted hboot h₀)
    (along_true r₀ hs) h

/-- One run: what it consumed is loaded exactly if no read it made failed. -/
theorem Noted.loaded_iff (hr : r.Noted E) :
    r.Loaded ↔ ∀ i < r.hist.length, (E.access i).xfer = mpiSuccess := by
  constructor
  · intro h i hi
    have hm : (⟨mpiSuccess, (E.access i).xfer⟩ : Access) ∈ r.hist.map Transfer.access := by
      rw [hr.access]
      exact List.mem_map.2 ⟨i, List.mem_range.2 hi, rfl⟩
    obtain ⟨t, ht, hti⟩ := List.mem_map.1 hm
    rw [h t ht] at hti
    exact (congrArg Access.xfer hti).symm
  · intro h t ht
    have hm := List.mem_map_of_mem (f := Transfer.access) ht
    rw [hr.access] at hm
    obtain ⟨i, hi, hti⟩ := List.mem_map.1 hm
    rw [← hti, h i (List.mem_range.1 hi)]
    rfl

/-- While the opens succeed, `n` receives consume `n` records, read or not. -/
theorem recvs_run (n : Nat) {r : Replay} (hd : ∀ i, (r.dir.record i).isSome)
    (ho : ∀ i < r.hist.length + n, (E.access i).fopen = mpiSuccess) :
    ∃ r', run (hook E) r (List.replicate n (.call (.recv .c ⟨0, 1, .byte⟩ worldComm))) = some r' ∧
      r'.hist.length = r.hist.length + n := by
  induction n generalizing r with
  | zero => exact ⟨r, rfl, rfl⟩
  | succ n ih =>
    obtain ⟨bytes, hbytes⟩ := Option.isSome_iff_exists.1 (hd r.cptRead)
    have hopen : r.openCode (E.access r.hist.length) = mpiSuccess := by
      unfold openCode
      rw [hbytes]
      exact ho _ (by omega)
    obtain ⟨r₁, hread, hdir, hlen⟩ : ∃ r₁, hook E r (.call (.recv .c ⟨0, 1, .byte⟩ worldComm)) =
        some r₁ ∧ r₁.dir = r.dir ∧ r₁.hist.length = r.hist.length + 1 := by
      obtain ⟨m, hm⟩ := readInFile_opens ⟨0, 1, .byte⟩ hopen
      obtain ⟨-, rfl⟩ := readInFile_some hm
      exact ⟨_, congrArg (Option.bind · success) hm, rfl, List.length_append⟩
    obtain ⟨r', hrun, hcount⟩ := ih (r := r₁) (hdir ▸ hd) (by rw [hlen]; intro i hi; exact ho i (by omega))
    exact ⟨r', by rw [List.replicate_succ, run_cons, hread]; exact hrun, by omega⟩

end Replay

/-- **Failures of file accesses.** They are never passed over in silence exactly if the
capture meets none, and the replay none in a read while the opens succeed. -/
theorem never_silent_iff {access : Nat → Access} (hn : ∀ n, 0 ≤ (access n).fopen) :
    (Capture.NeverSilent access ↔ ∀ n, access n = .ok) ∧
      (Replay.NeverSilent access ↔
        ∀ n, (∀ i ≤ n, (access i).fopen = mpiSuccess) → (access n).xfer = mpiSuccess) := by
  refine ⟨⟨fun h n => ?_, fun h => ?_⟩, ⟨fun h n ho => ?_, fun h => ?_⟩⟩
  · -- a run of `n + 1` receives meets access `n`
    let E : Env := { fourProcesses with access := access }
    obtain ⟨s, hrun, hcount⟩ := Capture.recvs_run (E := E) hn (n + 1)
      (s := Capture.start E (fun _ => 0) (fun _ => 0) ⟨none, fun _ => none⟩) rfl rfl
    have hexec : Capture.exec E (fun _ => 0) (fun _ => 0) ⟨none, fun _ => none⟩
        (List.replicate (n + 1) (.call (.recv .c ⟨0, 1, .byte⟩ worldComm))) = some s := hrun
    have hrec := h E _ _ _ _ s rfl hexec
    refine (Capture.exec_noted hexec).recorded_iff.1 hrec n ?_
    rw [hcount]
    exact Nat.lt_add_left _ (Nat.lt_succ_self n)
  · rintro E mem reqs dir evs s rfl hs
    exact (Capture.exec_noted hs).recorded_iff.2 fun i _ => h i
  · let E : Env := { fourProcesses with access := access }
    let dir : Dir := ⟨some 4, fun _ => some []⟩
    obtain ⟨r₀, h₀⟩ : ∃ r₀, Replay.mpiInit E (Replay.boot (fun _ => 0) dir) = some r₀ := ⟨_, rfl⟩
    obtain ⟨-, -, -, hdir, hhist⟩ := Replay.mpiInit_fresh h₀
    obtain ⟨r, hrun, hcount⟩ := Replay.recvs_run (E := E) (r := r₀) (n + 1)
      (by rw [hdir]; intro i; rfl)
      (by rw [hhist]; intro i hi; exact ho i (by simp at hi; omega))
    have hexec : Replay.exec E (fun _ => 0) dir
        (List.replicate (n + 1) (.call (.recv .c ⟨0, 1, .byte⟩ worldComm))) = some r := by
      unfold Replay.exec
      rw [h₀]
      exact hrun
    have hload := h E _ _ _ r rfl hexec
    refine (Replay.exec_noted hexec).loaded_iff.1 hload n ?_
    rw [hcount]
    exact Nat.lt_add_left _ (Nat.lt_succ_self n)
  · rintro E mem dir hs r rfl hr
    have hnoted := Replay.exec_noted hr
    exact hnoted.loaded_iff.2 fun i hi => h i fun j hj => hnoted.opened j (by omega)

/-- A capture in which nothing fails, and a replay whose reads fail from the second
record on, together with its opens. -/
theorem never_silent_opens :
    (Capture.NeverSilent fun _ => .ok) ∧ Replay.NeverSilent fun n => ⟨n, n⟩ := by
  refine ⟨(never_silent_iff fun _ => by decide).1.2 fun _ => rfl,
    (never_silent_iff fun n => Int.natCast_nonneg n).2.2 fun n h => h n (Nat.le_refl n)⟩

/-- A capture that goes on without its first record, and a replay that goes on without
the bytes of its first. -/
theorem silent_failures :
    ¬ Capture.NeverSilent (fun _ => ⟨noSuchFile, mpiSuccess⟩) ∧
      ¬ Replay.NeverSilent fun _ => ⟨mpiSuccess, noSuchFile⟩ := by
  constructor
  · intro h
    have hs := h { fourProcesses with access := fun _ => ⟨noSuchFile, mpiSuccess⟩ } (fun _ => 0)
      (fun _ => 0) ⟨none, fun _ => none⟩ [.call (.recv .c ⟨0, 1, .byte⟩ worldComm)] _ rfl
      (Option.some_get (by decide)).symm
    have hrec := hs.access
    revert hrec
    decide
  · intro h
    have hr := h { fourProcesses with access := fun _ => ⟨mpiSuccess, noSuchFile⟩ } (fun _ => 0)
      ⟨some 4, fun _ => some [7]⟩ [.call (.recv .c ⟨0, 1, .byte⟩ worldComm)] _ rfl
      (Option.some_get (by decide)).symm
    revert hr
    unfold Replay.Loaded
    decide

end MPIre

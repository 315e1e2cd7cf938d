import MPIre.Chronicle
/-
# Fortran `MPI_REDUCE`

The capture library defines `mpi_reduce_`; the replay library defines `mpi_reduce`,
to which no Fortran call binds (replay:1003-1008). Under replay a Fortran
`MPI_REDUCE` reaches MPI itself and reads no record, so a run stays in lockstep
exactly when the captured rank is the root of none of them (`lockstep_iff`).
-/
namespace MPIre
open Gather Run

/-- A Fortran call of the run, or the application's own computation. -/
def Event.fortranRun : Event → Bool
  | .call c => c.fortranInbound
  | .compute _ => true
  | .setenv _ | .copy .. => false

/-- An `MPI_REDUCE` to the captured rank. -/
def Event.ReducesTo (root : Int) : Event → Prop
  | .call (.reduce _ _ r _) => r = root
  | _ => False

/-- At every point of the run the replay has read as many records as the capture had
written, and after a reduce to the captured rank its buffer holds the result. -/
def InLockstep (E E' : Env) (mem : Mem) (reqs : Addr → Int) (dir : Dir) (evs : List Event) :
    Prop :=
  ∃ s, Capture.exec E mem reqs dir evs = some s ∧
    ∀ mem', ∃ r, Replay.mpiInit E' (Replay.boot mem' s.dir) = some r ∧
      ∀ xs, xs <+: evs → ∃ s₁ r₁, Capture.exec E mem reqs dir xs = some s₁ ∧
        run (Replay.event E') r xs = some r₁ ∧ r₁.cptRead = s₁.cptWrite ∧
        ∀ ys l b comm, xs = ys ++ [.call (.reduce l b (E.rank worldComm) comm)] →
          ∀ a ∈ b.cells, r₁.mem a = s₁.app.mem a

variable {E E' : Env} {s s' : Capture} {r : Replay} {ht : Htable} {ev : Event}

theorem captured_of_fortranRun (h : ev.fortranRun) (W : World) : ev.captured := by
  refine (captured_of_fortranInbound ?_ W).1
  cases ev with
  | setenv v => rfl
  | _ => exact h

/-- The flag is what it was at `MPI_Init`. -/
theorem Capture.event_flag (hF : E.FilesOk) (hs : s.Ready E ht) (hf : ev.fortranRun)
    (h : Capture.event E s ev = some s') : s'.activeDump = s.activeDump := by
  cases ev with
  | setenv v => cases hf
  | copy dst src => cases hf
  | compute f =>
    cases h
    rfl
  | call c =>
    have hc : c.captured := captured_of_fortranRun hf E.toWorld
    have h : Capture.step E s c = some s' := h
    rw [Capture.step_eq hs hF hc (Capture.unregistered_of_step hs hc h)] at h
    cases h
    rfl

/-- The tables know the same and the counters agree. -/
structure Even (E E' : Env) (s : Capture) (r : Replay) : Prop where
  capture : ∃ ht, s.Ready E ht ∧ ht.view E.hashPointer = r.requestHtab.view E'.hashPointer
  replay : r.Ready E' E.toWorld
  active : s.activeDump ≠ some 0
  read : r.cptRead = s.cptWrite

/-- A Fortran call the replay library hooks. -/
theorem replayed_of_fortranInbound {c : Call} (h : c.fortranInbound)
    (hr : ∀ l b root comm, c ≠ .reduce l b root comm) : c.replayed := by
  cases c with
  | reduce l b root comm => exact absurd rfl (hr l b root comm)
  | irecv l b comm a => exact (Bool.and_eq_true_iff.1 h).2
  | recv l b comm | allreduce l b comm => exact (Bool.and_eq_true_iff.1 h).2
  | bcast l b root comm => exact (Bool.and_eq_true_iff.1 h).2
  | alltoall l b comm => exact (Bool.and_eq_true_iff.1 h).2
  | wait l a | waitall l count array => rfl
  | _ => cases h

/-- The step lemma: any call but a reduce to the captured rank keeps the count. -/
theorem even_event (hF : E.FilesOk) (hF' : E'.FilesOk) (he : Even E E' s r) (hf : ev.fortranRun)
    (hr : ¬ ev.ReducesTo (E.rank worldComm)) (h : Capture.event E s ev = some s')
    (hl : s'.Left r.dir.record) :
    ∃ r', Replay.event E' r ev = some r' ∧ Even E E' s' r' ∧ r'.dir = r.dir := by
  obtain ⟨⟨ht, hs, hview⟩, hrep, hact, hread⟩ := he
  cases ev with
  | setenv v => cases hf
  | copy dst src => cases hf
  | compute f =>
    cases h
    exact ⟨_, rfl, ⟨⟨ht, hs.set_app _, hview⟩, ⟨hrep.rank, hrep.size, hrep.sound⟩, hact, hread⟩, rfl⟩
  | call c =>
    have hc : c.captured := captured_of_fortranRun hf E.toWorld
    have h : Capture.step E s c = some s' := h
    have hu := Capture.unregistered_of_step hs hc h
    have hstep := Capture.step_eq hs hF hc hu
    rw [Capture.kept_of_active hact] at hstep
    have hs' := Option.some.inj (hstep.symm.trans h)
    by_cases hred : ∃ l b root comm, c = .reduce l b root comm
    · -- the capture writes nothing off the root, and the replay is left to MPI
      obtain ⟨l, b, root, comm, rfl⟩ := hred
      obtain ⟨hlang, hcomm⟩ := Bool.and_eq_true_iff.1 hf
      obtain rfl : l = .fortran := beq_iff_eq.1 hlang
      obtain rfl : comm = worldComm := beq_iff_eq.1 hcomm
      have hroot : E.rank worldComm ≠ root := fun hroot => hr hroot.symm
      have hd : dumped E.toWorld (ht.view E.hashPointer) (.reduce .fortran b root worldComm) = [] :=
        if_neg hroot
      rw [hd, Capture.logged_nil] at hs'
      subst hs'
      exact ⟨_, rfl, ⟨⟨ht, ⟨hs.rank, hs.active, rfl, hs.sound, hs.nprocs⟩, hview⟩,
        ⟨hrep.rank, hrep.size, hrep.sound⟩, hact, hread⟩, rfl⟩
    · have hc' : c.replayed := replayed_of_fortranInbound hf fun l b root comm he =>
        hred ⟨l, b, root, comm, he⟩
      have hu' : c.Unregistered (r.requestHtab.view E'.hashPointer) := hview ▸ hu
      have hrs := lockstep hs hF hrep hF' hc hc' hact hread hu hu' (by rw [hview]) h hl
      refine ⟨_, hrs, ⟨⟨ht.after E.hashPointer c, hs' ▸ hs.step hu _, ?_⟩, hrep.step hu' _, ?_, ?_⟩,
        rfl⟩
      · show (ht.after E.hashPointer c).view E.hashPointer =
          (r.requestHtab.after E'.hashPointer c).view E'.hashPointer
        rw [view_after hs.sound, view_after hrep.sound, hview]
      · rw [← hs']
        exact hact
      · rw [← hs', Replay.loaded_cptRead, Capture.logged_cptWrite, hread]

/-- A run of the capture library that got through, event by event. -/
theorem Capture.run_points (hE : E.Captures) {evs : List Event} (hf : ∀ ev ∈ evs, ev.fortranRun)
    (hs : s.Ready E ht) :
    Along (Capture.event E) (fun s ev => (∃ ht, s.Ready E ht) ∧ ev.fortranRun = true) s evs :=
  ((along_and_mem hf (along_true s evs)).and_inv
    (fun _ _ _ ⟨_, hs⟩ _ h => Capture.event_ready hE.rank hs h) ⟨ht, hs⟩).mono
    fun _ _ h => ⟨h.1, h.2.1⟩

theorem Capture.event_left (hE : E.Captures) (hs : s.Ready E ht) (hf : ev.fortranRun)
    (h : Capture.event E s ev = some s') {record : Nat → Option (List Byte)}
    (hl : s'.Left record) : s.Left record := by
  cases ev with
  | setenv v => cases hf
  | copy dst src => cases hf
  | compute f =>
    cases h
    exact hl
  | call c =>
    have hc : c.captured := captured_of_fortranRun hf E.toWorld
    exact Capture.left_step hs hE.files hc (Capture.unregistered_of_step hs hc h) h hl

/-- A reduce to the captured rank is written down and not read back. -/
theorem reduce_apart (hF : E.FilesOk) (hs : s.Ready E ht) (ha : s.activeDump ≠ some 0)
    (hf : ev.fortranRun) (hr : ev.ReducesTo (E.rank worldComm))
    (h : Capture.event E s ev = some s') {r' : Replay} (h' : Replay.event E' r ev = some r') :
    s'.cptWrite = s.cptWrite + 1 ∧ r'.cptRead = r.cptRead := by
  cases ev with
  | call c =>
    cases c with
    | reduce l b root comm =>
      obtain ⟨hlang, hcomm⟩ := Bool.and_eq_true_iff.1 hf
      obtain rfl : l = .fortran := beq_iff_eq.1 hlang
      obtain rfl : comm = worldComm := beq_iff_eq.1 hcomm
      obtain rfl : root = E.rank worldComm := hr
      have h : Capture.step E s (.reduce .fortran b (E.rank worldComm) worldComm) = some s' := h
      rw [Capture.step_eq (c := .reduce .fortran b (E.rank worldComm) worldComm) hs hF rfl trivial,
        Capture.kept_of_active ha] at h
      cases h
      cases h'
      refine ⟨?_, rfl⟩
      rw [Capture.logged_cptWrite]
      simp [dumped]
    | _ => cases hr
  | _ => cases hr

/-- **Lockstep of a Fortran run.** It holds if and only if no `MPI_REDUCE` of the run
has the captured rank for its root. -/
theorem lockstep_iff (hE : E.Captures) (hE' : E'.Replays E) (ha : E.mpireActiveDump ≠ some 0)
    {mem : Mem} {reqs : Addr → Int} {dir : Dir} {evs : List Event}
    (hf : ∀ ev ∈ evs, ev.fortranRun) (hrun : Capture.exec E mem reqs dir evs = some s) :
    InLockstep E E' mem reqs dir evs ↔ ∀ ev ∈ evs, ¬ ev.ReducesTo (E.rank worldComm) := by
  have hact : (Capture.start E mem reqs dir).activeDump ≠ some 0 := by
    show some (E.mpireActiveDump.getD 1) ≠ some 0
    cases h : E.mpireActiveDump with
    | none => simp
    | some v =>
      rw [h] at ha
      exact ha
  have hstart := Capture.start_ready (E := E) mem reqs dir
  constructor
  · -- the first reduce to the captured rank breaks the count
    rintro ⟨s', -, hl⟩ ev hev hr
    obtain ⟨r, -, hpoint⟩ := hl mem
    obtain ⟨ys, zs, rfl⟩ := List.append_of_mem hev
    obtain ⟨s₁, r₁, hs₁, hr₁, hread₁, -⟩ := hpoint ys (List.prefix_append _ _)
    obtain ⟨s₂, r₂, hs₂, hr₂, hread₂, -⟩ := hpoint (ys ++ [ev]) ⟨zs, by simp⟩
    rw [Capture.exec_eq hE] at hs₁ hs₂
    rw [run_append, hs₁, Option.bind_some, run_single] at hs₂
    rw [run_append, hr₁, Option.bind_some, run_single] at hr₂
    have hpts := Capture.run_points hE (fun ev h => hf ev (List.mem_append_left _ h)) hstart
    obtain ⟨⟨ht₁, hready⟩, hact₁⟩ := run_safe
      (I := fun s => (∃ ht, s.Ready E ht) ∧ s.activeDump ≠ some 0)
      (fun m ev m' hm hok h => by
        obtain ⟨⟨ht, hm⟩, hma⟩ := hm
        exact ⟨Capture.event_ready hE.rank hm h,
          (Capture.event_flag hE.files hm hok.2 h).symm ▸ hma⟩)
      ⟨⟨[], hstart⟩, hact⟩ hpts hs₁
    obtain ⟨hw, hr'⟩ := reduce_apart hE.files hready hact₁ (hf ev hev) hr hs₂ hr₂
    omega
  · intro hno
    rw [Capture.exec_eq hE] at hrun
    obtain ⟨hts, hready⟩ := Capture.run_ready hE.rank hstart hrun
    refine ⟨s, (Capture.exec_eq hE evs).trans hrun, fun mem' => ?_⟩
    refine ⟨_, Replay.mpiInit_boot hE hE' mem' hready.nprocs, ?_⟩
    rintro xs ⟨zs, rfl⟩
    obtain ⟨s₁, hs₁, hzs⟩ := run_split hrun
    have hpts := Capture.run_points hE hf hstart
    have hleft : s₁.Left s.dir.record := run_back (F := fun s₁ => s₁.Left s.dir.record)
      (fun _ _ _ ⟨⟨_, hm⟩, hfe⟩ h hl => Capture.event_left hE hm hfe h hl) (hpts.append hs₁) hzs
      fun _ _ => rfl
    have hok := along_and_mem (fun ev h => hno ev (List.mem_append_left zs h)) hpts.left
    obtain ⟨r₁, hr₁, heven, -⟩ := run_sim (F := fun s₁ => s₁.Left s.dir.record)
      (R := fun m r => Even E E' m r ∧ r.dir = s.dir)
      (fun _ _ _ ⟨_, ⟨_, hm⟩, hfe⟩ h hl => Capture.event_left hE hm hfe h hl)
      (fun m r ev m' hR hok h hl => by
        obtain ⟨heven, hd⟩ := hR
        obtain ⟨r', hr', heven', hd'⟩ := even_event hE.files hE'.files heven hok.2.2 hok.1 h
          (by rw [hd]; exact hl)
        exact ⟨r', hr', heven', hd'.trans hd⟩)
      ⟨⟨⟨[], hstart, rfl⟩, Replay.start_ready mem' s.dir, hact, rfl⟩, rfl⟩ hok hs₁ hleft
    refine ⟨s₁, r₁, (Capture.exec_eq hE xs).trans hs₁, hr₁, heven.read, ?_⟩
    rintro ys l b comm rfl
    exact (hno (.call (.reduce l b (E.rank worldComm) comm)) (by simp) rfl).elim

/-- A receive, a reduce to another rank and one more receive. -/
def reduceElsewhere : List Event :=
  [.call (.irecv .fortran ⟨0, 2, .byte⟩ worldComm 100), .call (.reduce .fortran ⟨4, 1, .byte⟩ 3 worldComm),
    .call (.wait .fortran 100), .call (.allreduce .fortran ⟨8, 2, .byte⟩ worldComm)]

theorem lockstep_reduceElsewhere :
    InLockstep fourProcesses fourProcesses (fun _ => 0) (fun _ => 0) ⟨none, fun _ => none⟩
      reduceElsewhere ↔ ∀ ev ∈ reduceElsewhere, ¬ ev.ReducesTo 0 :=
  lockstep_iff fourProcesses_captures fourProcesses_replays (by decide) (by decide)
    (Option.some_get (x := Capture.exec fourProcesses (fun _ => 0) (fun _ => 0)
      ⟨none, fun _ => none⟩ reduceElsewhere) (by decide)).symm

/-- One `MPI_REDUCE` to the captured rank. -/
def reduceHere : List Event := [.call (.reduce .fortran ⟨0, 1, .byte⟩ 0 worldComm)]

theorem lockstep_reduceHere :
    (∀ ev ∈ reduceHere, ev.fortranRun) ∧
      ¬ InLockstep fourProcesses fourProcesses (fun _ => 0) (fun _ => 0) ⟨none, fun _ => none⟩
        reduceHere := by
  refine ⟨by decide, ?_⟩
  rintro ⟨s, -, hl⟩
  obtain ⟨r, hr, hpoint⟩ := hl fun _ => 0
  obtain ⟨s₁, r₁, hs₁, hr₁, hread, -⟩ := hpoint reduceHere (List.prefix_refl _)
  cases hr₁
  have hzero : r.cptRead = 0 := (Replay.mpiInit_fresh hr).1
  have hone : (Capture.exec fourProcesses (fun _ => 0) (fun _ => 0) ⟨none, fun _ => none⟩
      reduceHere).map Capture.cptWrite = some 1 := by decide
  rw [hs₁] at hone
  have hread : r.cptRead = s₁.cptWrite := hread
  rw [hzero, Option.some.inj hone] at hread
  exact absurd hread (by decide)

end MPIre

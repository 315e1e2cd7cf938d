import MPIre.Pending
import MPIre.ReplayStep
/-
# Capture and replay in lockstep

A run is a list of events: calls, the application's own computation, changes of
`MPIRE_ACTIVE_DUMP` and copies between request variables. A replay has the same
computation and calls; the other two leave it alone.

* `mpiInit_boot` (one for each library): the state after `MPI_Init`.
* `lockstep`: one call under both. The replay takes the records the capture wrote
  during this very call if both tables know the same about the variables waited on.
* `lockstep_tracked`: the same from what MPI has pending. The replay then copies
  exactly the bytes the call brought in.
-/
namespace MPIre
open Gather

inductive Event where
  | call (c : Call)
  | compute (f : Mem → Mem)
  | setenv (v : Int)
  | copy (dst src : Addr)

def Capture.event (E : Env) (s : Capture) : Event → Option Capture
  | .call c => Capture.step E s c
  | .compute f => some { s with app := { s.app with mem := f s.app.mem } }
  | .setenv v => some { s with activeDump := some v }
  | .copy dst src => some { s with app := s.app.setReq dst (s.app.reqs src) }

def Replay.event (E : Env) (s : Replay) : Event → Option Replay
  | .call c => Replay.step E s c
  | .compute f => some { s with mem := f s.mem }
  | .setenv _ | .copy _ _ => some s

/-- What a captured run relies on: it is this process that is captured, and neither
MPI nor the file system fails. -/
structure Env.Captures (E : Env) : Prop where
  rank : E.mpireRank = some (E.rank worldComm)
  nprocs : E.nprocsOpens = true
  files : E.FilesOk
  comm : E.Succeeds

/-- A replay of the process that `E` captured. -/
structure Env.Replays (E' E : Env) : Prop where
  rank : E'.mpireRank = E.mpireRank
  nprocs : E'.nprocsOpens = true
  files : E'.FilesOk

/-- The captured process is rank 0 of four. -/
def fourProcesses : Env := .plain (fun _ => 0) (fun _ => 4) 0

theorem fourProcesses_captures : fourProcesses.Captures := ⟨rfl, rfl, fun _ => rfl, fun _ => rfl⟩

theorem fourProcesses_replays : fourProcesses.Replays fourProcesses := ⟨rfl, rfl, fun _ => rfl⟩

/-- The capture library right after `MPI_Init`. -/
def Capture.start (E : Env) (mem : Mem) (reqs : Addr → Int) (dir : Dir) : Capture where
  app := ⟨mem, reqs, ∅, 1, E.code 0⟩
  cptWrite := 0
  mpireRank := E.rank worldComm
  activeDump := some (E.mpireActiveDump.getD 1)
  outputPath := snprintf 128 (E.mpireOutputPath.getD (defaultPath (E.rank worldComm)))
  requestHtab := some []
  dir := { dir with nprocs := some (E.size worldComm) }
  hist := []

/-- The replay library right after `MPI_Init`, over a log of the process `E` captured. -/
def Replay.start (E' E : Env) (mem : Mem) (dir : Dir) : Replay where
  mem := mem
  now := 1
  ret := E'.code 0
  out := 0
  cptRead := 0
  mpireRank := E.rank worldComm
  mpireSize := E.size worldComm
  inputPath := snprintf 1024 (E'.mpireInputPath.getD (defaultPath (E.rank worldComm)))
  requestHtab := []
  dir := dir
  hist := []
  initialized := true

variable {E E' : Env}

theorem Capture.mpiInit_boot (hE : E.Captures) (mem : Mem) (reqs : Addr → Int) (dir : Dir) :
    Capture.mpiInit E (Capture.boot E mem reqs dir) = some (Capture.start E mem reqs dir) := by
  unfold Capture.mpiInit Capture.initMPIre
  simp only [hE.rank, hE.nprocs, if_true]
  rfl

theorem Capture.start_ready (mem : Mem) (reqs : Addr → Int) (dir : Dir) :
    (Capture.start E mem reqs dir).Ready E [] where
  rank := rfl
  active := Option.some_ne_none _
  table := rfl
  sound := Htable.sound_nil
  nprocs := rfl

theorem Capture.start_timely (mem : Mem) (reqs : Addr → Int) (dir : Dir) :
    (Capture.start E mem reqs dir).app.Timely := by
  intro x hx
  cases hx

theorem Capture.start_tracked (t : Nat) (mem : Mem) (reqs : Addr → Int) (dir : Dir)
    (hash : Addr → UInt32) : Tracked hash t (Capture.start E mem reqs dir).app.ops [] where
  sound := Htable.sound_nil
  view a b := by
    refine ⟨fun h => by simp at h, ?_⟩
    rintro ⟨h, op, hl, -⟩
    cases hl

theorem Replay.mpiInit_boot (hE : E.Captures) (hE' : E'.Replays E) (mem : Mem) {dir : Dir}
    (hd : dir.nprocs = some (E.size worldComm)) :
    Replay.mpiInit E' (Replay.boot mem dir) = some (Replay.start E' E mem dir) := by
  have hr : E'.mpireRank = some (E.rank worldComm) := hE'.rank.trans hE.rank
  unfold Replay.mpiInit Replay.initMPIre
  simp only [Replay.boot, hr, hE'.nprocs, if_true, hd]
  rfl

/-- A library that was just initialised has read nothing and knows no request. -/
theorem Replay.mpiInit_fresh {mem : Mem} {dir : Dir} {r : Replay}
    (h : Replay.mpiInit E (Replay.boot mem dir) = some r) :
    r.cptRead = 0 ∧ r.mem = mem ∧ r.requestHtab = [] ∧ r.dir = dir ∧ r.hist = [] := by
  rcases Replay.mpiInit_some h with ⟨hi, -⟩ | ⟨-, x, n, -, -, rfl⟩
  · cases hi
  · exact ⟨rfl, rfl, rfl, rfl, rfl⟩

theorem Replay.start_ready (mem : Mem) (dir : Dir) :
    (Replay.start E' E mem dir).Ready E' E.toWorld := ⟨rfl, rfl, Htable.sound_nil⟩

/-! ## One call under both libraries -/

/-- The records the capture has written so far are in the directory of the replay. -/
def Capture.Left (record : Nat → Option (List Byte)) (s : Capture) : Prop :=
  ∀ i < s.cptWrite, record i = s.dir.record i

/-- What is left at the end was left before: a dump never touches an earlier record. -/
theorem Capture.left_logged {record : Nat → Option (List Byte)} {s : Capture} {bs : List Buf}
    (h : (s.logged bs).Left record) : s.Left record := by
  intro i hi
  rw [h i (Nat.lt_add_right _ hi)]
  exact Journal.append_before hi _ _

/-- The dumps of a call can be read back by whoever starts where they were written. -/
theorem Capture.holds_logged {record : Nat → Option (List Byte)} {s : Capture} {bs : List Buf}
    (h : (s.logged bs).Left record) :
    Journal.Holds record s.cptWrite (bs.map fun b => gather s.app.mem b.cells) := by
  refine (Journal.holds_append s.dir.record s.cptWrite _).of_eq fun i _ hi => h i ?_
  rw [List.length_map] at hi
  exact hi

theorem dumped_congr {W : World} {p : App} {view view' : Addr → Option Buf} {c : Call}
    (h : Agrees W p view c) (h' : Agrees W p view' c) : dumped W view c = dumped W view' c := by
  cases c with
  | wait l a =>
    have he : view a = view' a := Eq.trans h (Eq.symm h')
    simp only [dumped, he]
  | waitall l count array =>
    exact List.filterMap_congr fun a ha => (h a ha).trans (h' a ha).symm
  | _ => rfl

variable {s : Capture} {r : Replay} {ht : Htable} {c : Call}

/-- The step of the lockstep: dumping in force, the replay loads from its log what the
capture wrote there, and nothing else. -/
theorem lockstep (hs : s.Ready E ht) (hF : E.FilesOk) (hr : r.Ready E' E.toWorld)
    (hF' : E'.FilesOk) (hc : c.captured) (hc' : c.replayed) (ha : s.activeDump ≠ some 0)
    (hread : r.cptRead = s.cptWrite) (hu : c.Unregistered (ht.view E.hashPointer))
    (hu' : c.Unregistered (r.requestHtab.view E'.hashPointer))
    (hd : dumped E.toWorld (ht.view E.hashPointer) c =
      dumped E.toWorld (r.requestHtab.view E'.hashPointer) c)
    {s' : Capture} (hstep : Capture.step E s c = some s') (hleft : s'.Left r.dir.record) :
    Replay.step E' r c =
      some ({ r with
        requestHtab := r.requestHtab.after E'.hashPointer c
        ret := mpiSuccess }.loaded s'.app.mem (dumped E.toWorld (ht.view E.hashPointer) c)) := by
  rw [Capture.step_eq hs hF hc hu, Capture.kept_of_active ha] at hstep
  cases hstep
  have hh := Capture.holds_logged hleft
  have hh : Journal.Holds r.dir.record r.cptRead
      ((dumped E.toWorld (r.requestHtab.view E'.hashPointer) c).map fun b =>
        gather (effect E.toWorld s.app c).mem b.cells) := by
    rw [hread, ← hd]
    exact hh
  rw [Replay.step_eq hr hF' hc' hu' hh, hd]
  rfl

/-- Both tables stand for what MPI has pending: the replay for the part since `t`. -/
structure Together (E E' : Env) (t : Nat) (s : Capture) (ht : Htable) (r : Replay) : Prop where
  capture : s.Ready E ht
  replay : r.Ready E' E.toWorld
  active : s.activeDump ≠ some 0
  read : r.cptRead = s.cptWrite
  begun : t ≤ s.app.now
  tracked : Tracked E.hashPointer 0 s.app.ops ht
  tracked' : Tracked E'.hashPointer t s.app.ops r.requestHtab

/-- What a call of a captured run has to meet. -/
structure Call.Orderly (W : World) (p : App) (c : Call) : Prop where
  disciplined : c.Disciplined W p
  packed : c.Packed W
  fits : c.Fits W

instance (W : World) (p : App) (c : Call) : Decidable (c.Orderly W p) :=
  decidable_of_iff (c.Disciplined W p ∧ c.Packed W ∧ c.Fits W)
    ⟨fun h => ⟨h.1, h.2.1, h.2.2⟩, fun h => ⟨h.disciplined, h.packed, h.fits⟩⟩

theorem unregistered_of_tracked {hash : Addr → UInt32} {W : World} {t : Nat} {p : App}
    (hT : Tracked hash t p.ops ht) (hd : c.Disciplined W p) : c.Unregistered (ht.view hash) := by
  cases c with
  | irecv l b comm a => exact hT.view_free hd
  | _ => trivial

/-- A call leaves the records of earlier ones alone. -/
theorem Capture.left_step (hs : s.Ready E ht) (hF : E.FilesOk) (hc : c.captured)
    (hu : c.Unregistered (ht.view E.hashPointer)) {s' : Capture}
    (hstep : Capture.step E s c = some s') {record : Nat → Option (List Byte)}
    (hl : s'.Left record) : s.Left record := by
  rw [Capture.step_eq hs hF hc hu] at hstep
  cases hstep
  have h := Capture.left_logged hl
  exact h

/-- An orderly call of a captured run goes through. -/
theorem Capture.step_orderly (hs : s.Ready E ht) (hE : E.Captures)
    (hT : Tracked E.hashPointer 0 s.app.ops ht) (hc : c.captured)
    (ho : c.Disciplined E.toWorld s.app) :
    ∃ s', Capture.step E s c = some s' ∧ s'.Ready E (ht.after E.hashPointer c) ∧
      Tracked E.hashPointer 0 s'.app.ops (ht.after E.hashPointer c) ∧
      s'.app = effect E.toWorld s.app c ∧ s'.activeDump = s.activeDump := by
  have hu := unregistered_of_tracked hT ho
  exact ⟨_, Capture.step_eq hs hE.files hc hu, hs.step hu _, hT.step hE.comm (Nat.zero_le _) ho,
    rfl, rfl⟩

/-- The lockstep of an orderly call: the replay copies the bytes it brought in. -/
theorem lockstep_tracked {t : Nat} (hE : E.Captures) (hF' : E'.FilesOk)
    (h : Together E E' t s ht r) (hc : c.captured) (hc' : c.replayed)
    (ho : c.Orderly E.toWorld s.app) (hsince : c.Since E.toWorld t s.app)
    {s' : Capture} (hstep : Capture.step E s c = some s') (hleft : s'.Left r.dir.record) :
    ∃ r', Replay.step E' r c = some r' ∧
      Together E E' t s' (ht.after E.hashPointer c) r' ∧ r'.dir = r.dir ∧
      r'.mem = overlay (inbound E.toWorld s.app c).flatten s'.app.mem r.mem := by
  have hu := unregistered_of_tracked h.tracked ho.disciplined
  have hu' := unregistered_of_tracked h.tracked' ho.disciplined
  have hag := h.tracked.agrees ho.disciplined (since_zero c)
  have hag' := h.tracked'.agrees ho.disciplined hsince
  have hd := dumped_congr hag hag'
  have hl := lockstep h.capture hE.files h.replay hF' hc hc' h.active h.read hu hu' hd hstep hleft
  obtain ⟨s₁, hs₁, hready, htrack, happ, hact⟩ :=
    Capture.step_orderly h.capture hE h.tracked hc ho.disciplined
  obtain rfl : s₁ = s' := Option.some.inj (hs₁.symm.trans hstep)
  have hcpt : s₁.cptWrite = s.cptWrite + (dumped E.toWorld (ht.view E.hashPointer) c).length := by
    rw [Capture.step_eq h.capture hE.files hc hu, Capture.kept_of_active h.active] at hstep
    cases hstep
    rfl
  refine ⟨_, hl, ⟨hready, h.replay.step hu' _, hact ▸ h.active, ?_, ?_, htrack, ?_⟩, rfl, ?_⟩
  · rw [hcpt, ← h.read]
    rfl
  · rw [happ, now_effect]
    exact Nat.le_succ_of_le h.begun
  · rw [happ]
    exact h.tracked'.step hE.comm h.begun ho.disciplined
  · rw [Replay.loaded_mem, List.flatMap_def, dumped_cells hag ho.packed ho.fits]

end MPIre

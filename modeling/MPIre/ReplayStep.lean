import MPIre.CaptureStep
import MPIre.Replay
/-
# One call under the replay library

The counterpart of the capture step: when the next records start with the bytes
that memory `m` has in the buffers `dumped` by a call, the call copies exactly those
bytes from `m`, advances the counter by the number of records and updates its table
with the same `Htable.after` (`step_eq`). The world `W` is the one of the captured
run; the replay knows its rank and size from the environment and from `nprocs`.

`loaded m bs` is the state after `read_in_file` of the buffers `bs`.
-/
namespace MPIre
open Gather

/-- Calls a hook of the replay library answers, on the world communicator; its
Fortran `mpi_alltoallv_` and a Fortran `MPI_REDUCE` are left out. -/
def Call.replayed : Call → Bool
  | .init _ | .finalize _ => false
  | .alltoallv l _ _ _ _ comm | .reduce l _ _ comm => l == .c && comm == worldComm
  | .recv _ _ comm | .irecv _ _ comm _ | .bcast _ _ _ comm | .alltoall _ _ comm
  | .allreduce _ _ comm => comm == worldComm
  | .send _ | .isend .. | .barrier _ | .wait .. | .waitall .. => true

namespace Replay

/-- The library set up for the captured process of world `W`, between two calls. -/
structure Ready (E : Env) (W : World) (s : Replay) : Prop where
  rank : s.mpireRank = W.rank worldComm
  size : s.mpireSize = W.size worldComm
  sound : s.requestHtab.Sound E.hashPointer

def loaded (s : Replay) (m : Mem) (bs : List Buf) : Replay :=
  { s with
    cptRead := s.cptRead + bs.length
    mem := overlay (bs.flatMap Buf.cells) m s.mem
    hist := s.hist ++ transfers s.cptRead bs }

variable {E : Env} {W : World} {s : Replay} {m : Mem}

@[simp] theorem loaded_nil : s.loaded m [] = s := by
  simp [loaded, transfers]

theorem loaded_cons (b : Buf) (bs : List Buf) :
    (s.loaded m [b]).loaded m bs = s.loaded m (b :: bs) := by
  simp [loaded, transfers, overlay_append, Nat.add_comm, Nat.add_left_comm]

@[simp] theorem loaded_mem (bs : List Buf) :
    (s.loaded m bs).mem = overlay (bs.flatMap Buf.cells) m s.mem := rfl

@[simp] theorem loaded_cptRead (bs : List Buf) :
    (s.loaded m bs).cptRead = s.cptRead + bs.length := rfl

/-- Everything `read_in_file` can do if it returns. -/
theorem readInFile_some {b : Buf} {s' : Replay} (h : readInFile E s b = some s') :
    s.openCode (E.access s.hist.length) = mpiSuccess ∧
      s' = { s with
        cptRead := s.cptRead + 1
        mem := if (E.access s.hist.length).xfer = mpiSuccess
          then scatter s.mem b.cells ((s.dir.record s.cptRead).getD []) else s.mem
        hist := s.hist ++
          [⟨s.cptRead, b, ⟨mpiSuccess, (E.access s.hist.length).xfer⟩⟩] } := by
  simp only [readInFile] at h
  split at h
  · cases h
  · rename_i hopen
    rw [Classical.not_not] at hopen
    rw [hopen] at h
    exact ⟨hopen, (Option.some.inj h).symm⟩

/-- Everything `MPI_Init` can do if it returns. -/
theorem mpiInit_some {s' : Replay} (h : mpiInit E s = some s') :
    s.initialized = true ∧ s' = s.reinit ∨
      s.initialized = false ∧ ∃ r n, E.mpireRank = some r ∧
        (if E.nprocsOpens then s.dir.nprocs else none) = some n ∧ s' = { s with
          mpireRank := r
          mpireSize := n
          inputPath := snprintf 1024 (E.mpireInputPath.getD (defaultPath r))
          requestHtab := []
          initialized := true
          now := s.now + 1
          ret := E.code s.now } := by
  unfold mpiInit at h
  cases hi : s.initialized with
  | true =>
    rw [if_pos hi] at h
    exact .inl ⟨rfl, (Option.some.inj h).symm⟩
  | false =>
    rw [if_neg (by simp [hi])] at h
    obtain ⟨m, hm, h⟩ := Option.bind_eq_some_iff.1 h
    unfold initMPIre at hm
    split at hm
    · cases hm
    · rename_i r hr
      split at hm
      · cases hm
      · rename_i n hn
        cases hm
        exact .inr ⟨rfl, r, n, hr, hn, (Option.some.inj h).symm⟩

/-- `read_in_file` returns if the open succeeds. -/
theorem readInFile_opens (b : Buf) (h : s.openCode (E.access s.hist.length) = mpiSuccess) :
    ∃ s', readInFile E s b = some s' := by
  unfold readInFile
  simp only [h, ne_eq, not_true_eq_false, if_false]
  exact ⟨_, rfl⟩

/-- A record that starts with the bytes of `b` in `m` is read as those bytes,
whatever follows them in the file. -/
theorem readInFile_eq (hF : E.FilesOk) {b : Buf} {tail : List Byte}
    (hr : s.dir.record s.cptRead = some (gather m b.cells ++ tail)) :
    readInFile E s b = some (s.loaded m [b]) := by
  unfold readInFile openCode
  rw [hr, hF s.hist.length]
  simp [scatter_gather, loaded, transfers, mpiSuccess]

theorem readAll_eq (hF : E.FilesOk) : ∀ (bs : List Buf) {s : Replay},
    Journal.Holds s.dir.record s.cptRead (bs.map fun b => gather m b.cells) →
      bs.foldlM (readInFile E) s = some (s.loaded m bs)
  | [], s, _ => by simp
  | b :: bs, s, h => by
    obtain ⟨⟨tail, ht⟩, hrest⟩ := Journal.holds_cons.1 h
    have ih := readAll_eq hF bs (s := s.loaded m [b]) hrest
    rw [List.foldlM_cons, readInFile_eq hF ht]
    exact ih.trans (congrArg some (loaded_cons b bs))

theorem receive_eq (hF : E.FilesOk) (load : Bool) (b : Buf)
    (h : Journal.Holds s.dir.record s.cptRead
      ((if load then [b] else []).map fun b => gather m b.cells)) :
    receive E s load b = some ({ s with ret := mpiSuccess }.loaded m (if load then [b] else [])) := by
  cases load with
  | false => simp [receive, success]
  | true =>
    obtain ⟨⟨tail, ht⟩, -⟩ := Journal.holds_cons.1 h
    simp only [receive, if_true, readInFile_eq hF ht]
    rfl

theorem drain_eq (hs : s.Ready E W) (hF : E.FilesOk) {as : List Addr} (hn : as.Nodup)
    (h : Journal.Holds s.dir.record s.cptRead
      ((as.filterMap (s.requestHtab.view E.hashPointer)).map fun b => gather m b.cells)) :
    drain s (settleAll E.hashPointer (readInFile E) as) =
      some ({ s with
        requestHtab := s.requestHtab.settledAll E.hashPointer as
        ret := mpiSuccess }.loaded m (as.filterMap (s.requestHtab.view E.hashPointer))) := by
  unfold drain
  rw [settleAll_eq _ as _ hn hs.sound, readAll_eq hF _ h]
  rfl

theorem irecv_eq {b : Buf} {a : Addr} (hv : s.requestHtab.view E.hashPointer a = none) :
    mpiIrecv E s b a =
      some { s with
        requestHtab := s.requestHtab.posted E.hashPointer b a
        ret := mpiSuccess } := by
  unfold mpiIrecv
  rw [addRequest_eq_some hv]
  rfl

/-- The step lemma of the replay library. -/
theorem step_eq (hs : s.Ready E W) (hF : E.FilesOk) {c : Call} (hc : c.replayed)
    (hu : c.Unregistered (s.requestHtab.view E.hashPointer))
    (h : Journal.Holds s.dir.record s.cptRead
      ((dumped W (s.requestHtab.view E.hashPointer) c).map fun b => gather m b.cells)) :
    step E s c =
      some ({ s with
        requestHtab := s.requestHtab.after E.hashPointer c
        ret := mpiSuccess }.loaded m (dumped W (s.requestHtab.view E.hashPointer) c)) := by
  have hrank : ∀ comm : Comm, (comm == worldComm) = true → W.rank comm = s.mpireRank := by
    intro comm hc
    rw [beq_iff_eq.1 hc, hs.rank]
  have hsize : ∀ comm : Comm, (comm == worldComm) = true → W.size comm = s.mpireSize := by
    intro comm hc
    rw [beq_iff_eq.1 hc, hs.size]
  cases c with
  | init l | finalize l => cases hc
  | send l | barrier l =>
    simp only [dumped, loaded_nil]
    rfl
  | isend l a =>
    simp only [dumped, loaded_nil]
    rfl
  | irecv l b comm a =>
    simp only [dumped, loaded_nil]
    cases l <;> exact irecv_eq hu
  | wait l a =>
    have hf : [a].filterMap (s.requestHtab.view E.hashPointer) =
        (s.requestHtab.view E.hashPointer a).toList := by
      cases hv : s.requestHtab.view E.hashPointer a <;> simp [hv]
    have hd := drain_eq (m := m) hs hF (List.nodup_singleton a)
    simp only [funext (settleAll_single (readInFile E) a), hf] at hd
    cases l <;> exact hd h
  | waitall l count array =>
    have hn := nodup_slots l array count
    cases l <;> exact drain_eq hs hF hn h
  | recv l b comm | allreduce l b comm => cases l <;> exact receive_eq hF true b h
  | alltoall l b comm =>
    simp only [dumped, hsize comm hc] at h ⊢
    cases l <;> exact receive_eq hF true _ h
  | alltoallv l recvbuf rc rd t comm =>
    have hc : l = .c ∧ (comm == worldComm) = true := by simpa [Call.replayed] using hc
    obtain ⟨rfl, hc⟩ := hc
    simp only [dumped, hsize comm hc] at h ⊢
    exact receive_eq hF true _ h
  | bcast l b root comm =>
    have hl := receive_eq (s := s) (m := m) hF (decide (s.mpireRank ≠ root)) b
    simp only [dumped, hrank comm hc, decide_eq_true_eq] at h hl ⊢
    cases l <;> exact hl h
  | reduce l b root comm =>
    have hc : l = .c ∧ (comm == worldComm) = true := by simpa [Call.replayed] using hc
    obtain ⟨rfl, hc⟩ := hc
    have hl := receive_eq (s := s) (m := m) hF (decide (s.mpireRank = root)) b
    simp only [dumped, hrank comm hc, decide_eq_true_eq] at h hl ⊢
    exact hl h

/-- An alltoall whose `int` total is not positive loads nothing. -/
theorem alltoall_mem {l : Lang} {b : Buf} {comm : Comm} {s' : Replay}
    (hb : cInt (b.count * s.mpireSize) ≤ 0) (h : step E s (.alltoall l b comm) = some s') :
    s'.mem = s.mem := by
  have h : mpiAlltoall E s b = some s' := by cases l <;> exact h
  have hcells : Buf.cells { b with count := cInt (b.count * s.mpireSize) } = [] := by
    simp [Buf.cells, Int.toNat_of_nonpos hb]
  obtain ⟨s₁, hs₁, hs'⟩ := Option.bind_eq_some_iff.1 h
  obtain ⟨-, rfl⟩ := readInFile_some hs₁
  cases hs'
  show (if _ then scatter s.mem (Buf.cells { b with count := cInt (b.count * s.mpireSize) }) _
    else s.mem) = s.mem
  simp [hcells, scatter]

/-- A post on a registered variable is the end of the replay. -/
theorem step_exit {l : Lang} {b : Buf} {comm : Comm} {a : Addr}
    (hv : s.requestHtab.view E.hashPointer a ≠ none) :
    step E s (.irecv l b comm a) = none := by
  have h : mpiIrecv E s b a = none := by
    unfold mpiIrecv
    rw [addRequest_eq_none_iff.2 hv]
    rfl
  cases l <;> exact h

theorem Ready.step (hs : s.Ready E W) {c : Call}
    (hu : c.Unregistered (s.requestHtab.view E.hashPointer)) (bs : List Buf) :
    ({ s with
      requestHtab := s.requestHtab.after E.hashPointer c
      ret := mpiSuccess }.loaded m bs).Ready E W where
  rank := hs.rank
  size := hs.size
  sound := hs.sound.after fun l b comm a h => by
    subst h
    exact hu

end Replay

end MPIre

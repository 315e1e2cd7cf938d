import MPIre.Inbound
import MPIre.Capture
/-
# One call under the capture library

On the captured rank, with communication on `MPI_COMM_WORLD` and files that work,
a hooked call does three things whatever state it meets: its `effect` on the
application, the table's own update `Htable.after`, and one record for each buffer
`dumped` by it unless dumping is off. `step_eq` says so for all hooks at once; every
later result about the capture library goes through it.

`logged s bs` is `s` after `write_in_file` of the buffers `bs`; `kept` is what the
test of `MPIRE_ACTIVE_DUMP` leaves of them.
-/
namespace MPIre
open Gather

/-- The history of records `n`, `n + 1`, … written or read without an error. -/
def transfers : Nat → List Buf → List Transfer
  | _, [] => []
  | n, b :: bs => ⟨n, b, ⟨mpiSuccess, mpiSuccess⟩⟩ :: transfers (n + 1) bs

theorem transfers_index (n : Nat) (bs : List Buf) :
    (transfers n bs).map Transfer.index = List.range' n bs.length := by
  induction bs generalizing n with
  | nil => rfl
  | cons b bs ih => simp only [transfers, List.map_cons, ih, List.length_cons, List.range'_succ]

theorem transfers_buf (n : Nat) (bs : List Buf) : (transfers n bs).map Transfer.buf = bs := by
  induction bs generalizing n with
  | nil => rfl
  | cons b bs ih => simp only [transfers, List.map_cons, ih]

/-- Calls both bindings of which are hooked as they should be: on the world
communicator, and through neither the C `MPI_Waitall` nor the Fortran
`mpi_alltoallv_` of the capture library. -/
def Call.captured : Call → Bool
  | .init _ | .finalize _ => false
  | .waitall l _ _ => l == .fortran
  | .alltoallv l _ _ _ _ comm => l == .c && comm == worldComm
  | .recv _ _ comm | .irecv _ _ comm _ | .bcast _ _ _ comm | .alltoall _ _ comm
  | .allreduce _ _ comm | .reduce _ _ _ comm => comm == worldComm
  | .send _ | .isend .. | .barrier _ | .wait .. => true

/-- A post finds its variable unregistered. -/
def Call.Unregistered (view : Addr → Option Buf) : Call → Prop
  | .irecv _ _ _ a => view a = none
  | _ => True

namespace Capture

/-- The library on the captured rank, between two calls. -/
structure Ready (E : Env) (s : Capture) (ht : Htable) : Prop where
  rank : s.mpireRank = E.rank worldComm
  active : s.activeDump ≠ none
  table : s.requestHtab = some ht
  sound : ht.Sound E.hashPointer
  nprocs : s.dir.nprocs = some (E.size worldComm)

def logged (s : Capture) (bs : List Buf) : Capture :=
  { s with
    cptWrite := s.cptWrite + bs.length
    dir := { s.dir with
      record := Journal.append s.dir.record s.cptWrite (bs.map fun b => gather s.app.mem b.cells) }
    hist := s.hist ++ transfers s.cptWrite bs }

def kept (s : Capture) (bs : List Buf) : List Buf := if s.activeDump = some 0 then [] else bs

variable {E : Env} {s : Capture} {ht : Htable}

@[simp] theorem logged_nil : s.logged [] = s := by
  simp [logged, transfers]

theorem logged_cons (b : Buf) (bs : List Buf) : (s.logged [b]).logged bs = s.logged (b :: bs) := by
  simp [logged, transfers, Nat.add_comm, Nat.add_left_comm]

@[simp] theorem logged_cptWrite (bs : List Buf) :
    (s.logged bs).cptWrite = s.cptWrite + bs.length := rfl

theorem kept_of_active (h : s.activeDump ≠ some 0) (bs : List Buf) : s.kept bs = bs := if_neg h

theorem kept_of_off (h : s.activeDump = some 0) (bs : List Buf) : s.kept bs = [] := if_pos h

/-- A dump with nothing failing, dumping in force or not. -/
theorem writeInFile_eq (hF : E.FilesOk) (ha : s.activeDump ≠ none) (b : Buf) :
    writeInFile E s b = some (s.logged (s.kept [b])) := by
  unfold writeInFile
  cases hv : s.activeDump with
  | none => exact absurd hv ha
  | some v =>
    by_cases h0 : v = 0
    · subst h0
      simp [kept, hv]
    · simp [kept, hv, h0, hF s.hist.length, logged, transfers, mpiSuccess]

/-- The dumps of one call, in order. -/
theorem dumpAll_eq (hF : E.FilesOk) : ∀ (bs : List Buf) {s : Capture}, s.activeDump ≠ none →
    bs.foldlM (writeInFile E) s = some (s.logged (s.kept bs))
  | [], s, _ => by simp [kept]
  | b :: bs, s, ha => by
    rw [List.foldlM_cons, writeInFile_eq hF ha]
    have ih := dumpAll_eq hF bs (s := s.logged (s.kept [b])) ha
    by_cases h0 : s.activeDump = some 0
    · have hk : ∀ cs, s.kept cs = [] := kept_of_off h0
      simp only [hk, logged_nil] at ih ⊢
      exact ih
    · have hk : ∀ cs, s.kept cs = cs := kept_of_active h0
      have hk' : (s.logged [b]).kept bs = bs := kept_of_active (s := s.logged [b]) h0 bs
      rw [hk] at ih ⊢
      rw [hk', logged_cons] at ih
      exact ih.trans (by rw [hk])

theorem Ready.set_app (hs : s.Ready E ht) (app : App) : { s with app := app }.Ready E ht :=
  ⟨hs.rank, hs.active, hs.table, hs.sound, hs.nprocs⟩

/-- The table of a ready state, spelled out. -/
theorem Ready.eq_with (hs : s.Ready E ht) (app : App) :
    { s with app := app } = { s with app := app, requestHtab := some ht } := by
  rw [← hs.table]

theorem receive_eq (hs : s.Ready E ht) (hF : E.FilesOk) (ps : List Addr) (dump : Bool) (b : Buf) :
    receive E s ps dump b =
      some ({ s with app := pmpiReceive E.toWorld s.app ps, requestHtab := some ht }.logged
        (s.kept (if dump then [b] else []))) := by
  rw [← hs.eq_with]
  unfold receive
  cases dump with
  | false =>
    have hk : s.kept [] = [] := by simp [kept]
    simp [hk]
  | true => exact writeInFile_eq hF (hs.set_app _).active b

/-- Nothing is dumped: the call is the `PMPI_` call. -/
theorem receive_undumped {ps : List Addr} {dump : Bool} {b : Buf}
    (h : dump = true → s.activeDump = some 0) :
    receive E s ps dump b = some { s with app := pmpiReceive E.toWorld s.app ps } := by
  unfold receive writeInFile
  cases dump with
  | false => rfl
  | true => simp [h rfl]

/-- The tail of a wait on the registered variables of `as`. -/
theorem drain_eq (hs : s.Ready E ht) (hF : E.FilesOk) {as : List Addr} (hn : as.Nodup) :
    drain E s (settleAll E.hashPointer (writeInFile E) as) =
      some ({ s with requestHtab := some (ht.settledAll E.hashPointer as) }.logged
        (s.kept (as.filterMap (ht.view E.hashPointer)))) := by
  unfold drain
  rw [if_pos hs.rank.symm, hs.table]
  simp only [Option.bind_eq_bind, Option.bind_some]
  rw [settleAll_eq _ as _ hn hs.sound, dumpAll_eq hF _ hs.active]
  rfl

theorem register_eq (hs : s.Ready E ht) {b : Buf} {a : Addr}
    (hv : ht.view E.hashPointer a = none) :
    register E s b a = some { s with requestHtab := some (ht.posted E.hashPointer b a) } := by
  unfold register
  rw [hs.table]
  simp only [Option.bind_eq_bind, Option.bind_some]
  rw [addRequest_eq_some hv]
  rfl

/-- Posting again on a registered variable is the end of the process. -/
theorem register_exit (hs : s.Ready E ht) {b : Buf} {a : Addr}
    (hv : ht.view E.hashPointer a ≠ none) : register E s b a = none := by
  unfold register
  rw [hs.table]
  simp only [Option.bind_eq_bind, Option.bind_some]
  rw [addRequest_eq_none_iff.2 hv]
  rfl

theorem irecv_eq (hs : s.Ready E ht) (l : Lang) {b : Buf} {comm : Comm} {a : Addr}
    (hc : E.rank comm = s.mpireRank) (hv : ht.view E.hashPointer a = none) :
    irecv l E s b comm a =
      some { s with
        app := pmpiPostVar E.toWorld s.app l a (some b)
        requestHtab := some (ht.posted E.hashPointer b a) } := by
  unfold irecv
  rw [if_pos hc, register_eq hs hv]
  rfl

/-- The step lemma of the capture library. -/
theorem step_eq (hs : s.Ready E ht) (hF : E.FilesOk) {c : Call} (hc : c.captured)
    (hu : c.Unregistered (ht.view E.hashPointer)) :
    step E s c =
      some ({ s with
        app := effect E.toWorld s.app c
        requestHtab := some (ht.after E.hashPointer c) }.logged
          (s.kept (dumped E.toWorld (ht.view E.hashPointer) c))) := by
  have hnone : s.kept [] = [] := by simp [kept]
  have hworld : ∀ comm : Comm, (comm == worldComm) = true → E.rank comm = s.mpireRank := by
    intro comm h
    rw [beq_iff_eq.1 h, hs.rank]
  cases c with
  | init l | finalize l => cases hc
  | send l | barrier l =>
    simp only [dumped, hnone, logged_nil]
    exact congrArg some (hs.eq_with _)
  | isend l a =>
    simp only [dumped, hnone, logged_nil]
    exact congrArg some (hs.eq_with _)
  | irecv l b comm a =>
    simp only [dumped, hnone, logged_nil]
    cases l <;> exact irecv_eq hs _ (hworld comm hc) hu
  | wait l a =>
    have hd := fun app => drain_eq (hs.set_app app) hF (List.nodup_singleton a)
    have hf : [a].filterMap (ht.view E.hashPointer) = (ht.view E.hashPointer a).toList := by
      cases h : ht.view E.hashPointer a <;> simp [h]
    simp only [funext (settleAll_single (writeInFile E) a), hf] at hd
    cases l <;> exact hd _
  | waitall l count array =>
    have hc : l = .fortran := beq_iff_eq.1 hc
    subst hc
    exact drain_eq (hs.set_app _) hF (nodup_slots .fortran array count)
  | recv l b comm | allreduce l b comm =>
    have hd : decide (E.rank comm = s.mpireRank) = true := decide_eq_true (hworld comm hc)
    have h := receive_eq hs hF b.cells true b
    rw [← hd] at h
    cases l <;> exact h.trans (by rw [hd]; rfl)
  | alltoall l b comm =>
    have hd : decide (E.rank comm = s.mpireRank) = true := decide_eq_true (hworld comm hc)
    have h := receive_eq hs hF { b with count := b.count * E.size comm }.cells true
      { b with count := cInt (b.count * E.size comm) }
    rw [← hd] at h
    cases l <;> exact h.trans (by rw [hd]; rfl)
  | alltoallv l recvbuf rc rd t comm =>
    have hc : l = .c ∧ (comm == worldComm) = true := by simpa [Call.captured] using hc
    obtain ⟨rfl, hc⟩ := hc
    have hd : decide (E.rank comm = s.mpireRank) = true := decide_eq_true (hworld comm hc)
    have h := receive_eq hs hF ((blocks recvbuf rc rd t (E.size comm)).flatMap Buf.cells) true
      ⟨recvbuf, totalRecvcounts rc (E.size comm), t⟩
    rw [← hd] at h
    exact h.trans (by rw [hd]; rfl)
  | bcast l b root comm =>
    have h := receive_eq hs hF (if E.rank comm ≠ root then b.cells else [])
      (decide (E.rank comm = s.mpireRank ∧ E.rank comm ≠ root)) b
    simp only [decide_eq_true_eq, hworld comm hc, true_and] at h
    have hr := hworld comm hc
    cases l <;> simpa only [step, mpiBcast_, mpiBcast, effect, dumped, Htable.after, hr, true_and]
      using h
  | reduce l b root comm =>
    have h := receive_eq hs hF (if E.rank comm = root then b.cells else [])
      (decide (E.rank comm = s.mpireRank ∧ E.rank comm = root)) b
    simp only [decide_eq_true_eq, hworld comm hc, true_and] at h
    have hr := hworld comm hc
    cases l <;> simpa only [step, mpiReduce_, mpiReduce, effect, dumped, Htable.after, hr, true_and]
      using h

/-- A post on a registered variable exits, through either binding. -/
theorem step_exit (hs : s.Ready E ht) {l : Lang} {b : Buf} {a : Addr}
    (hv : ht.view E.hashPointer a ≠ none) : step E s (.irecv l b worldComm a) = none := by
  have h : irecv l E s b worldComm a = none := by
    unfold irecv
    rw [if_pos hs.rank.symm, register_exit hs hv]
    rfl
  cases l <;> exact h

/-- A captured call leaves the library ready for the next one. -/
theorem Ready.step (hs : s.Ready E ht) {c : Call} (hu : c.Unregistered (ht.view E.hashPointer))
    (bs : List Buf) :
    ({ s with
      app := effect E.toWorld s.app c
      requestHtab := some (ht.after E.hashPointer c) }.logged bs).Ready E
        (ht.after E.hashPointer c) where
  rank := hs.rank
  active := hs.active
  table := rfl
  sound := hs.sound.after fun l b comm a h => by
    subst h
    exact hu
  nprocs := hs.nprocs

end Capture

end MPIre

import MPIre.Disk
import MPIre.DiskCapture
/-
# The replay library on disk

The hooks of the replay library, reading their files by name as the capture library writes them.
`run_found` says that the library replays the `Dir` that is in the directory of its path.
-/
namespace MPIre
open FileTree Gather Run

/-- The library without its log. -/
def Replay.dirless (r : Replay) : Replay := { r with dir := ⟨none, fun _ => none⟩ }

structure DiskReplay where
  /-- Its own directory stays empty. -/
  lib : Replay
  disk : Disk

namespace DiskReplay

def boot (mem : Mem) (disk : Disk) : DiskReplay where
  lib := .boot mem ⟨none, fun _ => none⟩
  disk := disk

variable (E : Env)

def readInFile (s : DiskReplay) (b : Buf) : Option DiskReplay :=
  let a := E.access s.lib.hist.length
  let file := s.disk.read (s.lib.recordName s.lib.cptRead)
  let fp := if file = none then noSuchFile else a.fopen
  if fp ≠ mpiSuccess then none
  else some { s with lib := { s.lib with
    cptRead := s.lib.cptRead + 1
    mem := if a.xfer = mpiSuccess then scatter s.lib.mem b.cells (file.getD []) else s.lib.mem
    hist := s.lib.hist ++ [⟨s.lib.cptRead, b, ⟨fp, a.xfer⟩⟩] } }

/-- What `fscanf` returns is not looked at. -/
def initMPIre (s : DiskReplay) : Option DiskReplay :=
  match E.mpireRank with
  | none => none
  | some r =>
    let path := snprintf 1024 (E.mpireInputPath.getD (defaultPath r))
    match (if E.nprocsOpens then s.disk.read (MPIre.nprocsName path) else none) with
    | none => none
    | some bs => some { s with lib := { s.lib with
        mpireRank := r
        mpireSize := (scanInt (chars bs)).getD s.lib.mpireSize
        inputPath := path
        requestHtab := [] } }

def mpiInit (s : DiskReplay) : Option DiskReplay :=
  if s.lib.initialized then some { s with lib := s.lib.reinit }
  else do
    let s ← initMPIre E s
    pure { s with lib := { s.lib with
      initialized := true
      now := s.lib.now + 1
      ret := E.code s.lib.now } }

def success (s : DiskReplay) : Option DiskReplay :=
  some { s with lib := { s.lib with ret := mpiSuccess } }

def perform (s : DiskReplay) : Replay.Action → Option DiskReplay
  | .init => mpiInit E s
  | .receive load b => do
    let s ← if load then readInFile E s b else some s
    success s
  | .drain as => do
    let (s, ht) ← settleAll E.hashPointer (readInFile E) as (s, s.lib.requestHtab)
    success { s with lib := { s.lib with requestHtab := ht } }
  | act => do
    let lib ← Replay.perform E s.lib act
    pure { s with lib := lib }

def hook (s : DiskReplay) (h : Replay.Hook) : Option DiskReplay :=
  perform E s (h.action E s.lib.mpireRank s.lib.mpireSize)

end DiskReplay

/-- What `init_MPIre` leaves in `MPIre_input_path`. -/
def Env.readPath (E : Env) : Path :=
  snprintf 1024 (E.mpireInputPath.getD (defaultPath (E.mpireRank.getD 0)))

/-- How many records a hook can read. -/
def Replay.Hook.records : Replay.Hook → Nat
  | .call c => c.records
  | _ => 1

namespace DiskReplay

variable {E : Env} {s s' : DiskReplay} {r r' : Replay}

/-- The numbers of the records that the hook can read are numbers of an `int`. -/
def Counts (s : DiskReplay) (h : Replay.Hook) : Prop := s.lib.cptRead + h.records ≤ 2 ^ 31

instance (s : DiskReplay) (h : Replay.Hook) : Decidable (Counts s h) :=
  inferInstanceAs (Decidable (_ ≤ _))

variable {d : Disk}

/-- The log of the other library is the one on disk, and nothing else differs. -/
structure Finds (E : Env) (d : Disk) (s : DiskReplay) (r : Replay) : Prop where
  lib : s.lib = r.dirless
  disk : s.disk = d
  path : r.inputPath = E.readPath
  initialized : r.initialized = true
  log : d.log E.readPath = r.dir

/-- After at most `n` records. -/
def Near (E : Env) (d : Disk) (n : Nat) (s : DiskReplay) (r : Replay) : Prop :=
  Finds E d s r ∧ r.cptRead ≤ n

section found

variable (hshort : E.readPath.length ≤ 1012) (hdir : d.fs.IsDir (E.readPath ++ ['/']))
include hshort hdir

theorem Finds.readInFile (h : Finds E d s r) (hn : r.cptRead < 2 ^ 31) (b : Buf) :
    Option.Rel (Near E d (r.cptRead + 1)) (readInFile E s b) (Replay.readInFile E r b) := by
  obtain ⟨lib, d₀⟩ := s
  obtain ⟨rfl, rfl, hp, hi, hl⟩ := h
  have hfits : E.readPath.Fits (some r.cptRead) := Path.fits_of_short hshort _ fun i hi => by
    cases hi
    exact hn
  have hfile : d₀.read (r.dirless.recordName r.dirless.cptRead) = r.dir.record r.cptRead := by
    show d₀.read (recordName r.inputPath r.cptRead) = _
    rw [hp, ← hl]
    exact Disk.read_fileName hdir hfits
  have hcode : (if r.dir.record r.cptRead = none then noSuchFile
      else (E.access r.hist.length).fopen) = r.openCode (E.access r.hist.length) := by
    unfold Replay.openCode
    cases r.dir.record r.cptRead with
    | none => rfl
    | some bs => exact if_neg (Option.some_ne_none bs)
  unfold DiskReplay.readInFile Replay.readInFile
  dsimp only
  rw [hfile, show r.dirless.hist = r.hist from rfl, hcode]
  split
  · exact .none
  · exact .some ⟨⟨rfl, rfl, hp, hi, hl⟩, Nat.le_refl _⟩

theorem Near.settle {n : Nat} {ht : Htable} (h : Near E d n s r) (hn : n < 2 ^ 31) (a : Addr) :
    Option.Rel (fun x y => Near E d (n + 1) x.1 y.1 ∧ x.2 = y.2)
      (MPIre.settle E.hashPointer (DiskReplay.readInFile E) a a (s, ht))
      (MPIre.settle E.hashPointer (Replay.readInFile E) a a (r, ht)) := by
  unfold MPIre.settle
  cases getRequest E.hashPointer ht a with
  | none => exact .some ⟨⟨h.1, Nat.le_succ_of_le h.2⟩, rfl⟩
  | some e =>
    have hread := h.1.readInFile hshort hdir (Nat.lt_of_le_of_lt h.2 hn) e.toBuf
    refine rel_bind hread fun s' r' h' => ?_
    cases delRequest ht (E.hashPointer a) e with
    | none => exact .none
    | some ht => exact .some ⟨⟨h'.1, h'.2.trans (Nat.succ_le_succ h.2)⟩, rfl⟩

theorem Near.settleAll {n : Nat} {ht : Htable} (h : Near E d n s r) {as : List Addr}
    (hn : n + as.length ≤ 2 ^ 31) :
    Option.Rel (fun x y => Near E d (n + as.length) x.1 y.1 ∧ x.2 = y.2)
      (MPIre.settleAll E.hashPointer (DiskReplay.readInFile E) as (s, ht))
      (MPIre.settleAll E.hashPointer (Replay.readInFile E) as (r, ht)) := by
  induction as generalizing s r ht n with
  | nil => exact .some ⟨h, rfl⟩
  | cons a as ih =>
    rw [List.length_cons] at hn ⊢
    refine rel_bind (h.settle hshort hdir (by omega) a) fun x y hxy => ?_
    obtain ⟨s', ht'⟩ := x
    obtain ⟨r', ht''⟩ := y
    obtain ⟨h', rfl⟩ : Near E d (n + 1) s' r' ∧ ht' = ht'' := hxy
    rw [Nat.add_comm as.length, ← Nat.add_assoc]
    exact ih h' (by omega)

omit hshort hdir in
theorem Finds.success (h : Finds E d s r) : Option.Rel (Finds E d) s.success r.success :=
  .some ⟨by rw [h.lib]; rfl, h.disk, h.path, h.initialized, h.log⟩

theorem Finds.receive (h : Finds E d s r) (hn : r.cptRead < 2 ^ 31) (load : Bool) (b : Buf) :
    Option.Rel (Finds E d) (perform E s (.receive load b))
      (Replay.perform E r (.receive load b)) := by
  cases load with
  | false => exact h.success
  | true => exact rel_bind (h.readInFile hshort hdir hn b) fun _ _ h' => h'.1.success

theorem Finds.drain (h : Finds E d s r) {as : List Addr}
    (hn : r.cptRead + as.length ≤ 2 ^ 31) :
    Option.Rel (Finds E d) (perform E s (.drain as)) (Replay.perform E r (.drain as)) := by
  have htab : s.lib.requestHtab = r.requestHtab := by rw [h.lib]; rfl
  have hnear : Near E d r.cptRead s r := ⟨h, Nat.le_refl _⟩
  unfold perform Replay.perform Replay.drain
  rw [htab]
  refine rel_bind (hnear.settleAll hshort hdir hn) fun x y hxy => ?_
  obtain ⟨s', ht'⟩ := x
  obtain ⟨r', ht''⟩ := y
  obtain ⟨h', rfl⟩ : Near E d _ s' r' ∧ ht' = ht'' := hxy
  have hset : Finds E d { s' with lib := { s'.lib with requestHtab := ht' } }
      { r' with requestHtab := ht' } :=
    ⟨by rw [h'.1.lib]; rfl, h'.1.disk, h'.1.path, h'.1.initialized, h'.1.log⟩
  exact hset.success

end found

/-- How many records an action can read. -/
def actionRecords : Replay.Action → Nat
  | .receive .. => 1
  | .drain as => as.length
  | _ => 0

theorem action_records (rank size : Int) (h : Replay.Hook) :
    actionRecords (h.action E rank size) ≤ h.records := by
  cases h with
  | call c =>
    cases c with
    | alltoallv l recvbuf rc rd t comm =>
      cases l with
      | c => exact Nat.le_refl 1
      | fortran =>
        show actionRecords (Replay.alltoallvAction ..) ≤ 1
        unfold Replay.alltoallvAction
        split <;> simp [actionRecords]
    | reduce l b root comm =>
      cases l <;> simp [Replay.Hook.action, actionRecords, Replay.Hook.records, Call.records]
    | _ =>
      simp [Replay.Hook.action, Replay.Action.nothing, actionRecords, Replay.Hook.records,
        Call.records, slots]
  | _ =>
    simp [Replay.Hook.action, Replay.Action.nothing, actionRecords, Replay.Hook.records]

section found

variable (hshort : E.readPath.length ≤ 1012) (hdir : d.fs.IsDir (E.readPath ++ ['/']))
include hshort hdir

/-- The first call. -/
theorem finds_init (mem : Mem) :
    Option.Rel (Finds E d) (mpiInit E (boot mem d))
      (Replay.mpiInit E (.boot mem (d.log E.readPath))) := by
  have hread : (boot mem d).disk.read (MPIre.nprocsName E.readPath) = d.logGet E.readPath none :=
    Disk.read_fileName hdir (Path.fits_of_short hshort none fun _ h => nomatch h)
  have hnprocs : (Replay.boot mem (d.log E.readPath)).dir.nprocs =
      (d.logGet E.readPath none).map fun bs => (scanInt (chars bs)).getD 0 := rfl
  unfold mpiInit Replay.mpiInit
  rw [if_neg (show ¬ (boot mem d).lib.initialized = true from Bool.false_ne_true),
    if_neg (show ¬ (Replay.boot mem (d.log E.readPath)).initialized = true from
      Bool.false_ne_true)]
  unfold DiskReplay.initMPIre Replay.initMPIre
  cases hk : E.mpireRank with
  | none => exact .none
  | some k =>
    have hp : snprintf 1024 (E.mpireInputPath.getD (defaultPath k)) = E.readPath := by
      unfold Env.readPath
      rw [hk]
      rfl
    dsimp only
    rw [hp]
    cases E.nprocsOpens with
    | false => exact .none
    | true =>
      rw [if_pos rfl, if_pos rfl, hread, hnprocs]
      cases d.logGet E.readPath none with
      | none => exact .none
      | some bs => exact .some ⟨rfl, rfl, rfl, rfl, rfl⟩

/-- The step lemma. -/
theorem Finds.hook (h : Finds E d s r) {k : Replay.Hook} (hn : Counts s k) :
    Option.Rel (Finds E d) (hook E s k) (Replay.hook E r k) := by
  have hrank : s.lib.mpireRank = r.mpireRank := by rw [h.lib]; rfl
  have hsize : s.lib.mpireSize = r.mpireSize := by rw [h.lib]; rfl
  have hcpt : s.lib.cptRead = r.cptRead := by rw [h.lib]; rfl
  have hrecords := action_records (E := E) r.mpireRank r.mpireSize k
  unfold Counts at hn
  rw [hcpt] at hn
  rw [Replay.hook_eq]
  unfold DiskReplay.hook
  rw [hrank, hsize]
  generalize k.action E r.mpireRank r.mpireSize = act at hrecords
  cases act with
  | init =>
    have hi : s.lib.initialized = true := by
      rw [h.lib]
      exact h.initialized
    show Option.Rel _ (mpiInit E s) (Replay.mpiInit E r)
    unfold mpiInit Replay.mpiInit
    rw [if_pos hi, if_pos h.initialized]
    exact .some ⟨by rw [h.lib]; rfl, h.disk, h.path, h.initialized, h.log⟩
  | receive load b =>
    refine h.receive hshort hdir ?_ load b
    have hone : 1 ≤ k.records := hrecords
    omega
  | drain as =>
    refine h.drain hshort hdir ?_
    have hlen : as.length ≤ k.records := hrecords
    omega
  | post b a =>
    have htab : s.lib.requestHtab = r.requestHtab := by rw [h.lib]; rfl
    show Option.Rel _ (Option.bind (Replay.mpiIrecv E s.lib b a) _) (Replay.mpiIrecv E r b a)
    unfold Replay.mpiIrecv
    rw [htab]
    cases addRequest E.hashPointer r.requestHtab b a with
    | none => exact .none
    | some ht => exact .some ⟨by rw [h.lib]; rfl, h.disk, h.path, h.initialized, h.log⟩
  | finalize | answer out | fallThrough b =>
    exact .some ⟨by rw [h.lib]; rfl, h.disk, h.path, h.initialized, h.log⟩
  | fault => exact .none

/-- The run lemma. -/
theorem run_finds {mem : Mem} (l : Lang) {hs : List Replay.Hook}
    (hn : Along (DiskReplay.hook E) Counts (boot mem d) (.call (.init l) :: hs)) :
    Option.Rel (Finds E d) (run (DiskReplay.hook E) (boot mem d) (.call (.init l) :: hs))
      (run (Replay.hook E) (.boot mem (d.log E.readPath)) (.call (.init l) :: hs)) := by
  have hinit : Option.Rel (Finds E d) (DiskReplay.hook E (boot mem d) (.call (.init l)))
      (Replay.hook E (.boot mem (d.log E.readPath)) (.call (.init l))) := finds_init hshort hdir mem
  rw [run_cons, run_cons]
  have hnext := hn.2
  generalize DiskReplay.hook E (boot mem d) _ = x at hinit hnext
  generalize Replay.hook E _ (.call (.init l)) = y at hinit
  cases hinit with
  | none => exact .none
  | some h => exact run_rel_along (fun _ _ _ h hn => h.hook hshort hdir hn) h (hnext _ rfl)

end found

/-- What two captured receives leave on an empty disk. -/
def recorded : Option DiskCapture :=
  run (DiskCapture.event DiskCapture.intoLog)
    (DiskCapture.boot DiskCapture.intoLog (fun _ => 0) (fun _ => 0) .bare)
    (.call (.init .c) :: [.call (.recv .c ⟨8, 2, .byte⟩ worldComm),
      .call (.recv .fortran ⟨9, 1, .byte⟩ worldComm)])

theorem recorded_ready (s : DiskCapture) (hs : s ∈ recorded) :
    s.disk.Ready DiskCapture.intoLog.readPath := by
  obtain ⟨d, hd, hr⟩ := DiskCapture.prepared_intoLog
  have hrel : Option.Rel (DiskCapture.Shows DiskCapture.intoLog) recorded _ :=
    DiskCapture.run_shows _ _ hd hr .c (by decide)
  rw [Option.mem_def.1 hs] at hrel
  cases hrel with
  | some h => exact h.ready

end DiskReplay

end MPIre

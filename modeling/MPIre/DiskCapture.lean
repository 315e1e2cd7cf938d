import MPIre.CaptureRun
import MPIre.Disk
/-
# The capture library on disk

The hooks of the capture library with the files they write. `Capture` keeps its log in a `Dir`;
here the library opens its files by name, after `init_MPIre` has made their directory.

`run_filed` says that the log it leaves on disk is the `Dir` of the other library: on any process
and in any run whose counter is an `int`, from a disk on which the directory can be made.
`exec_elsewhere` says that it touches no file of any other name.
-/
namespace MPIre
open FileTree Gather Run

/-- The library without its log. -/
def Capture.dirless (c : Capture) : Capture := { c with dir := ⟨none, fun _ => none⟩ }

structure DiskCapture where
  /-- Its own directory stays empty. -/
  lib : Capture
  disk : Disk

namespace DiskCapture

def boot (E : Env) (mem : Mem) (reqs : Addr → Int) (disk : Disk) : DiskCapture where
  lib := .boot E mem reqs ⟨none, fun _ => none⟩
  disk := disk

def setApp (s : DiskCapture) (app : App) : DiskCapture :=
  { s with lib := { s.lib with app := app } }

variable (E : Env)

/-- What `MPI_File_open` answers. A name that leads nowhere is no negative code. -/
def openCode (s : DiskCapture) : Int :=
  if s.disk.locate (s.lib.recordName s.lib.cptWrite) = none then noSuchFile
  else (E.access s.lib.hist.length).fopen

/-- The state `write_in_file` returns in with dumping in force. The file is made where the name
leads to none; where it leads nowhere nothing is written, and the process goes on. -/
def wrote (s : DiskCapture) (b : Buf) : DiskCapture :=
  let a := E.access s.lib.hist.length
  let payload := if a.xfer = mpiSuccess then gather s.lib.app.mem b.cells else []
  { lib := { s.lib with
      cptWrite := s.lib.cptWrite + 1
      hist := s.lib.hist ++ [⟨s.lib.cptWrite, b, ⟨openCode E s, a.xfer⟩⟩] }
    disk :=
      match s.disk.locate (s.lib.recordName s.lib.cptWrite) with
      | none => s.disk
      | some x =>
        if a.fopen = mpiSuccess
        then s.disk.put x (Journal.overwrite ((s.disk.get x).getD []) payload) else s.disk }

def writeInFile (s : DiskCapture) (b : Buf) : Option DiskCapture :=
  match s.lib.activeDump with
  | none => none
  | some v =>
    if v = 0 then some s
    else if openCode E s < 0 then none
    else some (wrote E s b)

/-- `fopen(filename, "w")`, `fprintf(fp, "%d", size)`. -/
def initMPIre (s : DiskCapture) : Option DiskCapture :=
  match E.mpireRank with
  | none => none
  | some r =>
    if E.rank worldComm = r then do
      let path := snprintf 128 (E.mpireOutputPath.getD (defaultPath r))
      let disk ← s.disk.prepare path
      let x ← if E.nprocsOpens then disk.locate (MPIre.nprocsName path) else none
      pure {
        lib := { s.lib with
          mpireRank := r
          activeDump := some (s.lib.activeDump.getD 1)
          outputPath := path
          requestHtab := some [] }
        disk := disk.put x (ascii (printInt (E.size worldComm))) }
    else some { s with lib := { s.lib with mpireRank := r } }

def drain (s : DiskCapture) (loop : DiskCapture × Htable → Option (DiskCapture × Htable)) :
    Option DiskCapture :=
  if E.rank worldComm = s.lib.mpireRank then do
    let ht ← s.lib.requestHtab
    let (s, ht) ← loop (s, ht)
    pure { s with lib := { s.lib with requestHtab := some ht } }
  else some s

def perform (s : DiskCapture) : Capture.Action → Option DiskCapture
  | .init => initMPIre E (s.setApp (s.lib.app.tick E.toWorld))
  | .receive ps dump b =>
    let s := s.setApp (pmpiReceive E.toWorld s.lib.app ps)
    if dump then writeInFile E s b else some s
  | .drain app key as => drain E (s.setApp app) fun x =>
      as.foldlM (fun x a => settle E.hashPointer (writeInFile E) (key a) a x) x
  | act => do
    let lib ← Capture.perform E s.lib act
    pure { s with lib := lib }

def step (s : DiskCapture) (c : Call) : Option DiskCapture :=
  perform E s (Capture.callAction E s.lib.app s.lib.mpireRank c)

def event (s : DiskCapture) : Event → Option DiskCapture
  | .call c => step E s c
  | ev => do
    let lib ← Capture.event E s.lib ev
    pure { s with lib := lib }

end DiskCapture

/-- The directory that `init_MPIre` leaves in `MPIre_output_path`. -/
def Env.logPath (E : Env) : Path :=
  if E.mpireRank = some (E.rank worldComm) then
    snprintf 128 (E.mpireOutputPath.getD (defaultPath (E.rank worldComm)))
  else []

theorem Env.logPath_short (E : Env) : E.logPath.length ≤ 127 := by
  unfold Env.logPath
  split
  · rw [snprintf_length]
    omega
  · exact Nat.zero_le _

theorem Env.fits_nprocs (E : Env) : E.logPath.Fits none :=
  Path.fits_of_short (E.logPath_short.trans (by decide)) none fun _ h => nomatch h

theorem Env.fits_record (E : Env) {n : Nat} (hn : n < 2 ^ 31) : E.logPath.Fits (some n) :=
  Path.fits_of_short (E.logPath_short.trans (by decide)) _ fun i hi => by
    cases hi
    exact hn

/-- The disk after `init_MPIre` made the directory. -/
def Env.prepared (E : Env) (d : Disk) : Option Disk :=
  if E.mpireRank = some (E.rank worldComm) then d.prepare E.logPath else some d

/-- How many records a call can write. -/
def Call.records : Call → Nat
  | .waitall _ count _ => count
  | _ => 1

def Event.records : Event → Nat
  | .call c => c.records
  | _ => 0

namespace DiskCapture

variable {E : Env} {s s' : DiskCapture} {c c' : Capture} {d : Disk}

/-- The numbers of the records that the event can write are numbers of an `int`. -/
def Counts (s : DiskCapture) (ev : Event) : Prop := s.lib.cptWrite + ev.records ≤ 2 ^ 31

instance (s : DiskCapture) (ev : Event) : Decidable (Counts s ev) :=
  inferInstanceAs (Decidable (_ ≤ _))

/-- The log on disk is that of the other library, and nothing else differs. -/
structure Shows (E : Env) (s : DiskCapture) (c : Capture) : Prop where
  lib : s.lib = c.dirless
  path : c.outputPath = E.logPath
  named : E.mpireRank = some (E.rank worldComm) → E.logPath ≠ []
  ready : s.disk.Ready E.logPath
  log : s.disk.log E.logPath = c.dir

theorem Shows.set_app (h : Shows E s c) (app : App) :
    Shows E (s.setApp app) { c with app := app } := by
  obtain ⟨lib, d⟩ := s
  obtain ⟨rfl, hp, hne, hr, hl⟩ := h
  exact ⟨rfl, hp, hne, hr, hl⟩

theorem Shows.set_table (h : Shows E s c) (tab : Option Htable) :
    Shows E { s with lib := { s.lib with requestHtab := tab } } { c with requestHtab := tab } := by
  obtain ⟨lib, d⟩ := s
  obtain ⟨rfl, hp, hne, hr, hl⟩ := h
  exact ⟨rfl, hp, hne, hr, hl⟩

/-- After at most `n` more records. -/
def Near (E : Env) (n : Nat) (s : DiskCapture) (c : Capture) : Prop :=
  Shows E s c ∧ c.cptWrite ≤ n

/-- What `write_in_file` does in both libraries, below the limit of its counter. -/
theorem Shows.writeInFile (h : Shows E s c) (hn : c.cptWrite < 2 ^ 31) (b : Buf) :
    Option.Rel (Near E (c.cptWrite + 1)) (writeInFile E s b) (Capture.writeInFile E c b) := by
  obtain ⟨lib, d⟩ := s
  obtain ⟨rfl, hp, hne, hr, hl⟩ := h
  have hplace : d.locate (c.dirless.recordName c.dirless.cptWrite) =
      some (entryName (some c.cptWrite) :: d.logPlace E.logPath) := by
    show d.locate (recordName c.outputPath c.cptWrite) = _
    rw [hp]
    exact hr.locate_fileName (E.fits_record hn)
  have hcode : openCode E ⟨c.dirless, d⟩ = (E.access c.hist.length).fopen :=
    if_neg (by rw [hplace]; exact Option.some_ne_none _)
  unfold DiskCapture.writeInFile Capture.writeInFile
  rw [hcode]
  show Option.Rel _ (match c.activeDump with | none => none | some v => _) _
  cases hv : c.activeDump with
  | none => exact .none
  | some v =>
    dsimp only
    by_cases h0 : v = 0
    · rw [if_pos h0, if_pos h0]
      exact .some ⟨⟨rfl, hp, hne, hr, hl⟩, Nat.le_succ _⟩
    · rw [if_neg h0, if_neg h0]
      by_cases hopen : (E.access c.hist.length).fopen < 0
      · rw [if_pos hopen, if_pos hopen]
        exact .none
      · rw [if_neg hopen, if_neg hopen]
        unfold wrote
        rw [hcode, hplace]
        refine .some ⟨⟨by rw [← hv]; rfl, hp, hne, ?_, ?_⟩, Nat.le_refl _⟩
        · show Disk.Ready (if _ then _ else _) _
          split
          · exact (d.put_sameDirs _ _).ready hr
          · exact hr
        · show Disk.log (if (E.access c.hist.length).fopen = mpiSuccess then _ else _) _ = _
          by_cases hok : (E.access c.hist.length).fopen = mpiSuccess
          · simp only [if_pos hok, ← hl]
            exact hr.log_put_record c.cptWrite _
          · simp only [if_neg hok]
            exact hl

theorem Near.settle {n : Nat} {ht : Htable} (h : Near E n s c) (hn : n < 2 ^ 31) (key a : Addr) :
    Option.Rel (fun x y => Near E (n + 1) x.1 y.1 ∧ x.2 = y.2)
      (MPIre.settle E.hashPointer (DiskCapture.writeInFile E) key a (s, ht))
      (MPIre.settle E.hashPointer (Capture.writeInFile E) key a (c, ht)) := by
  unfold MPIre.settle
  cases getRequest E.hashPointer ht key with
  | none => exact .some ⟨⟨h.1, Nat.le_succ_of_le h.2⟩, rfl⟩
  | some e =>
    refine rel_bind (h.1.writeInFile (Nat.lt_of_le_of_lt h.2 hn) e.toBuf) fun s' c' h' => ?_
    cases delRequest ht (E.hashPointer a) e with
    | none => exact .none
    | some ht => exact .some ⟨⟨h'.1, h'.2.trans (Nat.succ_le_succ h.2)⟩, rfl⟩

/-- The loop of a wait. -/
theorem Near.settles {n : Nat} {ht : Htable} (h : Near E n s c) (key : Addr → Addr)
    {as : List Addr} (hn : n + as.length ≤ 2 ^ 31) :
    Option.Rel (fun x y => Near E (n + as.length) x.1 y.1 ∧ x.2 = y.2)
      (as.foldlM (fun x a => MPIre.settle E.hashPointer (DiskCapture.writeInFile E) (key a) a x)
        (s, ht))
      (as.foldlM (fun x a => MPIre.settle E.hashPointer (Capture.writeInFile E) (key a) a x)
        (c, ht)) := by
  induction as generalizing s c ht n with
  | nil => exact .some ⟨h, rfl⟩
  | cons a as ih =>
    rw [List.length_cons] at hn ⊢
    refine rel_bind (h.settle (by omega) (key a) a) fun x y hxy => ?_
    obtain ⟨s', ht'⟩ := x
    obtain ⟨c', ht''⟩ := y
    obtain ⟨h', rfl⟩ : Near E (n + 1) s' c' ∧ ht' = ht'' := hxy
    rw [Nat.add_comm as.length, ← Nat.add_assoc]
    exact ih h' (by omega)

theorem Shows.drain (h : Shows E s c) {key : Addr → Addr} {as : List Addr}
    (hn : c.cptWrite + as.length ≤ 2 ^ 31) :
    Option.Rel (Shows E)
      (drain E s fun x =>
        as.foldlM (fun x a => settle E.hashPointer (DiskCapture.writeInFile E) (key a) a x) x)
      (Capture.drain E c fun x =>
        as.foldlM (fun x a => settle E.hashPointer (Capture.writeInFile E) (key a) a x) x) := by
  have hrank : s.lib.mpireRank = c.mpireRank := by rw [h.lib]; rfl
  have htab : s.lib.requestHtab = c.requestHtab := by rw [h.lib]; rfl
  unfold DiskCapture.drain Capture.drain
  rw [hrank, htab]
  by_cases hr : E.rank worldComm = c.mpireRank
  swap
  · rw [if_neg hr, if_neg hr]
    exact .some h
  rw [if_pos hr, if_pos hr]
  cases c.requestHtab with
  | none => exact .none
  | some ht =>
    simp only [Option.bind_eq_bind, Option.bind_some]
    have hnear : Near E c.cptWrite s c := ⟨h, Nat.le_refl _⟩
    refine rel_bind (hnear.settles key hn) fun x y hxy => ?_
    obtain ⟨s', ht'⟩ := x
    obtain ⟨c', ht''⟩ := y
    obtain ⟨h', rfl⟩ : Near E _ s' c' ∧ ht' = ht'' := hxy
    exact .some (h'.1.set_table (some ht'))

/-- `init_MPIre` on a disk on which the directory can be made. -/
theorem shows_init (hlib : s.lib = c.dirless)
    (hpath : E.mpireRank ≠ some (E.rank worldComm) → c.outputPath = [])
    (hprep : E.prepared s.disk = some d) (hr : d.Ready E.logPath)
    (hlog : d.log E.logPath = c.dir) :
    Option.Rel (Shows E) (initMPIre E s) (Capture.initMPIre E c) := by
  obtain ⟨lib, d₀⟩ := s
  obtain rfl : lib = c.dirless := hlib
  unfold DiskCapture.initMPIre Capture.initMPIre
  cases hk : E.mpireRank with
  | none => exact .none
  | some r =>
    dsimp only
    by_cases hw : E.rank worldComm = r
    · subst hw
      have hp : E.logPath =
          snprintf 128 (E.mpireOutputPath.getD (defaultPath (E.rank worldComm))) := if_pos hk
      have hprep' : d₀.prepare E.logPath = some d := by
        unfold Env.prepared at hprep
        rwa [if_pos hk] at hprep
      rw [if_pos rfl, if_pos rfl, ← hp, hprep']
      simp only [Option.bind_eq_bind, Option.bind_some]
      cases E.nprocsOpens with
      | false => exact .none
      | true =>
        have hplace : d.locate (MPIre.nprocsName E.logPath) =
            some (entryName none :: d.logPlace E.logPath) := hr.locate_fileName E.fits_nprocs
        rw [if_pos rfl, if_pos rfl, hplace]
        refine .some ⟨rfl, rfl, fun _ => Disk.prepare_ne_nil hprep',
          (d.put_sameDirs _ _).ready hr, ?_⟩
        show Disk.log (d.put _ _) _ = _
        rw [hr.log_put_nprocs, hlog]
    · have hno : E.mpireRank ≠ some (E.rank worldComm) := fun h =>
        hw (Option.some.inj (h.symm.trans hk))
      have hp : E.logPath = [] := if_neg hno
      have hd : some d₀ = some d := by
        unfold Env.prepared at hprep
        rwa [if_neg hno] at hprep
      cases hd
      rw [if_neg hw, if_neg hw]
      exact .some ⟨rfl, (hpath hno).trans hp.symm, fun h => absurd h hno, hr, hlog⟩

/-- A further `MPI_Init` finds the directory made. -/
theorem Shows.prepared (h : Shows E s c) : E.prepared s.disk = some s.disk := by
  unfold Env.prepared
  split
  · next hk => exact h.ready.prepare (h.named hk)
  · rfl

/-- Actions that open no file are those of the library. -/
theorem Shows.keep (h : Shows E s c) {x y : Option Capture} (hx : x = y.map Capture.dirless)
    (hy : ∀ c', y = some c' → c'.outputPath = c.outputPath ∧ c'.dir = c.dir) :
    Option.Rel (Shows E) (x.bind fun lib => some { s with lib := lib }) y := by
  subst hx
  cases y with
  | none => exact .none
  | some c' =>
    obtain ⟨hpath, hdir⟩ := hy c' rfl
    exact .some ⟨rfl, hpath.trans h.path, h.named, h.ready, h.log.trans hdir.symm⟩

theorem irecv_dirless (l : Lang) (b : Buf) (comm : Comm) (a : Addr) :
    Capture.irecv l E c.dirless b comm a = (Capture.irecv l E c b comm a).map Capture.dirless := by
  have hrank : c.dirless.mpireRank = c.mpireRank := rfl
  have htab : c.dirless.requestHtab = c.requestHtab := rfl
  unfold Capture.irecv Capture.register
  rw [hrank, htab]
  by_cases hr : E.rank comm = c.mpireRank
  · rw [if_pos hr, if_pos hr]
    cases c.requestHtab with
    | none => rfl
    | some ht =>
      simp only [Option.bind_eq_bind, Option.bind_some]
      cases addRequest E.hashPointer ht b a <;> rfl
  · rw [if_neg hr, if_neg hr]
    rfl

theorem irecv_dir {l : Lang} {b : Buf} {comm : Comm} {a : Addr}
    (h : Capture.irecv l E c b comm a = some c') :
    c'.outputPath = c.outputPath ∧ c'.dir = c.dir :=
  Capture.irecv_keeps (P := fun x => x.outputPath = c.outputPath ∧ x.dir = c.dir)
    (fun _ _ _ h => h) ⟨rfl, rfl⟩ h

theorem Shows.receive (h : Shows E s c) (ps : List Addr) {dump : Bool} (b : Buf)
    (hn : dump = true → c.cptWrite < 2 ^ 31) :
    Option.Rel (Shows E) (perform E s (.receive ps dump b))
      (Capture.perform E c (.receive ps dump b)) := by
  have happ : s.lib.app = c.app := by rw [h.lib]; rfl
  have h' := h.set_app (pmpiReceive E.toWorld c.app ps)
  rw [← happ] at h'
  unfold perform Capture.perform Capture.receive
  rw [← happ]
  cases dump with
  | false => exact .some h'
  | true =>
    exact rel_imp (h'.writeInFile (hn rfl) b) fun _ _ hw => hw.1

/-- How many records an action can write. -/
def actionRecords : Capture.Action → Nat
  | .receive .. => 1
  | .drain _ _ as => as.length
  | _ => 0

theorem callAction_records (app : App) (rank : Int) (k : Call) :
    actionRecords (Capture.callAction E app rank k) ≤ k.records := by
  cases k with
  | waitall l count array =>
    cases l <;> simp [Capture.callAction, actionRecords, Call.records, slots]
  | alltoallv l recvbuf rc rd t comm =>
    have hone : ∀ rc rd,
        actionRecords (Capture.alltoallvAction E rank recvbuf t comm rc rd) ≤ 1 := by
      intro rc rd
      unfold Capture.alltoallvAction
      split <;> simp [actionRecords]
    cases l
    · exact hone (some rc) (some rd)
    · exact hone (E.deref rc) (E.deref rd)
  | _ => simp [Capture.callAction, actionRecords, Call.records]

/-- The step lemma. -/
theorem Shows.step (h : Shows E s c) {k : Call} (hn : c.cptWrite + k.records ≤ 2 ^ 31) :
    Option.Rel (Shows E) (step E s k) (Capture.step E c k) := by
  have happ : s.lib.app = c.app := by rw [h.lib]; rfl
  have hrank : s.lib.mpireRank = c.mpireRank := by rw [h.lib]; rfl
  rw [Capture.step_perform]
  unfold DiskCapture.step
  rw [happ, hrank]
  have hrecords := callAction_records (E := E) c.app c.mpireRank k
  generalize Capture.callAction E c.app c.mpireRank k = act at hrecords
  cases act with
  | init =>
    have h' := h.set_app (c.app.tick E.toWorld)
    have hpath : E.mpireRank ≠ some (E.rank worldComm) → c.outputPath = [] := fun hno =>
      h.path.trans (if_neg hno)
    show Option.Rel _ (initMPIre E (s.setApp (s.lib.app.tick E.toWorld))) _
    rw [happ]
    exact shows_init h'.lib hpath h'.prepared h'.ready h'.log
  | receive ps dump b =>
    refine h.receive ps b fun hd => ?_
    have hone : 1 ≤ k.records := hrecords
    omega
  | drain app key as =>
    have h' := h.set_app app
    exact h'.drain (by
      have hlen : as.length ≤ k.records := hrecords
      show c.cptWrite + as.length ≤ _
      omega)
  | post l b comm a =>
    refine h.keep ?_ fun c' hc' => irecv_dir hc'
    rw [h.lib]
    exact irecv_dirless l b comm a
  | finalize | answer app =>
    exact .some ⟨by rw [h.lib]; rfl, h.path, h.named, h.ready, h.log⟩
  | fault => exact .none

theorem Shows.event (h : Shows E s c) {ev : Event} (hn : Counts s ev) :
    Option.Rel (Shows E) (event E s ev) (Capture.event E c ev) := by
  have hcpt : s.lib.cptWrite = c.cptWrite := by rw [h.lib]; rfl
  cases ev with
  | call k =>
    refine h.step ?_
    rw [← hcpt]
    exact hn
  | compute f | setenv v | copy dst src =>
    exact .some ⟨by rw [h.lib]; rfl, h.path, h.named, h.ready, h.log⟩

/-- The first call. -/
theorem shows_boot (mem : Mem) (reqs : Addr → Int) {disk : Disk} (hd : E.prepared disk = some d)
    (hr : d.Ready E.logPath) (l : Lang) :
    Option.Rel (Shows E) (event E (boot E mem reqs disk) (.call (.init l)))
      (Capture.event E (.boot E mem reqs (d.log E.logPath)) (.call (.init l))) := by
  let c := Capture.boot E mem reqs (d.log E.logPath)
  have hinit := shows_init (E := E) (c := { c with app := c.app.tick E.toWorld })
    (s := (boot E mem reqs disk).setApp (c.app.tick E.toWorld)) rfl (fun _ => rfl) hd hr rfl
  exact hinit

/-- The run lemma. -/
theorem run_shows (mem : Mem) (reqs : Addr → Int) {disk : Disk} (hd : E.prepared disk = some d)
    (hr : d.Ready E.logPath) (l : Lang) {evs : List Event}
    (hn : Along (event E) Counts (boot E mem reqs disk) (.call (.init l) :: evs)) :
    Option.Rel (Shows E) (run (event E) (boot E mem reqs disk) (.call (.init l) :: evs))
      (run (Capture.event E) (.boot E mem reqs (d.log E.logPath)) (.call (.init l) :: evs)) := by
  have hboot := shows_boot mem reqs hd hr l
  rw [run_cons, run_cons]
  have hnext := hn.2
  generalize event E (boot E mem reqs disk) (.call (.init l)) = x at hboot hnext
  generalize Capture.event E _ (.call (.init l)) = y at hboot
  cases hboot with
  | none => exact .none
  | some h => exact run_rel_along (fun _ _ _ h hn => h.event hn) h (hnext _ rfl)

/-- **The log on disk is the log.** On any process, from a disk on which the directory of its
log can be made, the library leaves there what the other one leaves in its `Dir`, over what the
directory held before; it does the same otherwise, and exits with it. -/
theorem run_filed (mem : Mem) (reqs : Addr → Int) {disk : Disk}
    (hd : E.prepared disk = some d) (hr : d.Ready E.logPath) (l : Lang) {evs : List Event}
    (hn : Along (event E) Counts (boot E mem reqs disk) (.call (.init l) :: evs)) :
    (run (event E) (boot E mem reqs disk) (.call (.init l) :: evs)).map
      (fun s => { s.lib with dir := s.disk.log E.logPath }) =
      run (Capture.event E) (.boot E mem reqs (d.log E.logPath)) (.call (.init l) :: evs) := by
  have hrel := run_shows mem reqs hd hr l hn
  revert hrel
  generalize run (event E) _ _ = x
  generalize run (Capture.event E) _ _ = y
  rintro (h | _)
  · rw [Option.map_some, h.lib, h.log]
    rfl
  · rfl

/-- An empty disk, and a path of one directory. -/
def intoLog : Env := fourProcessesIn "log/".toList

theorem prepared_intoLog : ∃ d, intoLog.prepared .bare = some d ∧ d.Ready intoLog.logPath := by
  obtain ⟨d, hd⟩ := Option.isSome_iff_exists.1
    (show (intoLog.prepared .bare).isSome = true by decide)
  have hall : ∀ d ∈ intoLog.prepared .bare, d.fs.IsDir (intoLog.logPath ++ ['/']) := by decide
  have hprep : Disk.bare.prepare intoLog.logPath = some d := hd
  exact ⟨d, hd, Disk.prepare_ready hprep (by decide) (fun e => Disk.bare_free e _) (hall d hd)⟩

/-- Two receives and a broadcast. -/
theorem run_filed_intoLog : ∃ d, intoLog.prepared .bare = some d ∧
    (run (event intoLog) (boot intoLog (fun _ => 0) (fun _ => 0) .bare)
      [.call (.init .c), .call (.recv .c ⟨8, 2, .byte⟩ worldComm),
        .call (.recv .fortran ⟨9, 1, .byte⟩ worldComm),
        .call (.bcast .c ⟨4, 1, .byte⟩ 1 worldComm)]).map
      (fun s => { s.lib with dir := s.disk.log intoLog.logPath }) =
    run (Capture.event intoLog)
      (.boot intoLog (fun _ => 0) (fun _ => 0) (d.log intoLog.logPath))
      [.call (.init .c), .call (.recv .c ⟨8, 2, .byte⟩ worldComm),
        .call (.recv .fortran ⟨9, 1, .byte⟩ worldComm),
        .call (.bcast .c ⟨4, 1, .byte⟩ 1 worldComm)] := by
  obtain ⟨d, hd, hr⟩ := prepared_intoLog
  exact ⟨d, hd, run_filed _ _ hd hr .c (by decide)⟩

/-! ## The other files -/

/-- Everything `write_in_file` can do if it returns. -/
theorem writeInFile_some {b : Buf} (h : DiskCapture.writeInFile E s b = some s') :
    s' = s ∨ s' = s.wrote E b := by
  unfold DiskCapture.writeInFile at h
  split at h
  · cases h
  · next v hv =>
    by_cases h0 : v = 0
    · rw [if_pos h0] at h
      exact .inl (Option.some.inj h).symm
    · rw [if_neg h0] at h
      by_cases hneg : openCode E s < 0
      · rw [if_pos hneg] at h
        cases h
      · rw [if_neg hneg] at h
        exact .inr (Option.some.inj h).symm

theorem wrote_disk (E : Env) (s : DiskCapture) (b : Buf) : (s.wrote E b).disk = s.disk ∨
    ∃ x bs, s.disk.locate (s.lib.recordName s.lib.cptWrite) = some x ∧
      (s.wrote E b).disk = s.disk.put x bs := by
  unfold wrote
  dsimp only
  split
  · exact .inl rfl
  · next x hx =>
    split
    · exact .inr ⟨x, _, hx, rfl⟩
    · exact .inl rfl

section keeps

variable {P : DiskCapture → Prop}
  (hf : ∀ s app tab flag, P s → P { s with
    lib := { s.lib with app := app, requestHtab := tab, activeDump := flag } })
  (hw : ∀ s b s', P s → writeInFile E s b = some s' → P s')
  (hi : ∀ s s', P s → initMPIre E s = some s' → P s')
include hf hw

theorem drain_keeps {key : Addr → Addr} {as : List Addr} (hs : P s)
    (h : drain E s (fun x => as.foldlM
      (fun x a => settle E.hashPointer (DiskCapture.writeInFile E) (key a) a x) x) = some s') :
    P s' := by
  unfold drain at h
  split at h
  · obtain ⟨ht, -, h⟩ := Option.bind_eq_some_iff.1 h
    obtain ⟨y, hy, h⟩ := Option.bind_eq_some_iff.1 h
    cases h
    exact hf y.1 _ _ _ (settles_keeps hw as hs hy)
  · cases h
    exact hs

include hi

/-- A property of the files and of what names them is kept by every event if `write_in_file`
and `init_MPIre` keep it. -/
theorem event_keeps {ev : Event} (hs : P s) (h : event E s ev = some s') : P s' := by
  have happ : ∀ s app, P s → P (s.setApp app) := fun s app hs => hf s app _ _ hs
  cases ev with
  | compute f | setenv v | copy dst src =>
    cases h
    exact hf s _ _ _ hs
  | call k =>
    have h : perform E s (Capture.callAction E s.lib.app s.lib.mpireRank k) = some s' := h
    generalize Capture.callAction E s.lib.app s.lib.mpireRank k = act at h
    cases act with
    | init => exact hi _ _ (happ s _ hs) h
    | receive ps dump b =>
      cases dump with
      | false =>
        cases h
        exact happ s _ hs
      | true => exact hw _ b _ (happ s (pmpiReceive E.toWorld s.lib.app ps) hs) h
    | drain app key as => exact drain_keeps hf hw (happ s app hs) h
    | post l b comm a =>
      obtain ⟨lib, hlib, h⟩ := Option.bind_eq_some_iff.1 h
      cases h
      have hlib : Capture.irecv l E s.lib b comm a = some lib := hlib
      exact Capture.irecv_keeps (P := fun lib => P { s with lib := lib })
        (fun lib app tab hs => hf _ _ _ _ hs) hs hlib
    | finalize | answer app =>
      cases h
      exact hf s _ _ _ hs
    | fault => cases h

end keeps

/-- The files outside of the log directory are those of `disk`. -/
structure Beside (E : Env) (disk : Disk) (s : DiskCapture) : Prop where
  path : s.lib.outputPath = E.logPath
  cwd : s.disk.fs.cwd = disk.fs.cwd
  get : ∀ x, x.tail ≠ disk.logPlace E.logPath → s.disk.get x = disk.get x

variable {disk : Disk}

/-- Everything `init_MPIre` can do to the disk. -/
theorem initMPIre_some (h : initMPIre E s = some s') :
    s'.lib.cptWrite = s.lib.cptWrite ∧
    ((E.mpireRank = some (E.rank worldComm) ∧ s'.lib.outputPath = E.logPath ∧
      ∃ d x, s.disk.prepare E.logPath = some d ∧ d.locate (fileName E.logPath none) = some x ∧
        s'.disk = d.put x (ascii (printInt (E.size worldComm)))) ∨
    (E.mpireRank ≠ some (E.rank worldComm) ∧ s'.lib.outputPath = s.lib.outputPath ∧
      s'.disk = s.disk)) := by
  unfold initMPIre at h
  cases hk : E.mpireRank with
  | none =>
    rw [hk] at h
    cases h
  | some r =>
    rw [hk] at h
    dsimp only at h
    by_cases hw : E.rank worldComm = r
    · subst hw
      have hp : E.logPath =
          snprintf 128 (E.mpireOutputPath.getD (defaultPath (E.rank worldComm))) := if_pos hk
      rw [if_pos rfl, ← hp] at h
      obtain ⟨d, hd, h⟩ := Option.bind_eq_some_iff.1 h
      have hopens : E.nprocsOpens = true := by
        by_contra hno
        rw [if_neg hno] at h
        cases h
      rw [if_pos hopens] at h
      obtain ⟨x, hx, h⟩ := Option.bind_eq_some_iff.1 h
      cases h
      exact ⟨rfl, .inl ⟨rfl, rfl, d, x, hd, hx, rfl⟩⟩
    · rw [if_neg hw] at h
      cases h
      exact ⟨rfl, .inr ⟨fun h => hw (Option.some.inj h).symm, rfl, rfl⟩⟩

theorem beside_init (hpath : E.mpireRank ≠ some (E.rank worldComm) → s.lib.outputPath = [])
    (hcwd : s.disk.fs.cwd = disk.fs.cwd)
    (hget : ∀ x, x.tail ≠ disk.logPlace E.logPath → s.disk.get x = disk.get x)
    (h : initMPIre E s = some s') : Beside E disk s' := by
  obtain ⟨-, ⟨-, hp, d, x, hd, hx, hdisk⟩ | ⟨hno, hp, hdisk⟩⟩ := initMPIre_some h
  · have hcwd' := (Disk.prepare_sameFiles hd).cwd
    have htail := Disk.locate_tail E.logPath_short hx
    rw [Disk.logPlace_cwd (hcwd'.trans hcwd)] at htail
    refine ⟨hp, by rw [hdisk]; exact hcwd'.trans hcwd, fun y hy => ?_⟩
    have hne : y ≠ x := fun he => hy (by rw [he, htail])
    rw [hdisk, Disk.get_put_ne hne, Disk.prepare_get hd, hget y hy]
  · have hempty : E.logPath = [] := if_neg hno
    exact ⟨hp.trans ((hpath hno).trans hempty.symm), by rw [hdisk]; exact hcwd,
      fun y hy => by rw [hdisk]; exact hget y hy⟩

theorem Beside.writeInFile (hs : Beside E disk s) {b : Buf}
    (h : DiskCapture.writeInFile E s b = some s') : Beside E disk s' := by
  rcases writeInFile_some h with rfl | rfl
  · exact hs
  rcases wrote_disk E s b with hd | ⟨x, bs, hx, hd⟩
  · exact ⟨hs.path, by rw [hd]; exact hs.cwd, fun y hy => by rw [hd]; exact hs.get y hy⟩
  · unfold Capture.recordName at hx
    rw [hs.path] at hx
    have htail := Disk.locate_tail (e := some s.lib.cptWrite) E.logPath_short hx
    rw [Disk.logPlace_cwd hs.cwd] at htail
    refine ⟨hs.path, by rw [hd]; exact hs.cwd, fun y hy => ?_⟩
    have hne : y ≠ x := fun he => hy (by rw [he, htail])
    rw [hd, Disk.get_put_ne hne, hs.get y hy]

theorem Beside.event {ev : Event} (hs : Beside E disk s)
    (h : DiskCapture.event E s ev = some s') : Beside E disk s' := by
  refine event_keeps (fun s app tab flag hs => ⟨hs.path, hs.cwd, hs.get⟩)
    (fun s b s' hs h => hs.writeInFile h) (fun s s' hs h => ?_) hs h
  exact beside_init (fun hno => hs.path.trans (if_neg hno)) hs.cwd hs.get h

/-- **No other file is touched.** Whatever fails, the library of a process changes files in the
directory of its log only. -/
theorem exec_elsewhere {mem : Mem} {reqs : Addr → Int} {l : Lang} {evs : List Event}
    (h : run (DiskCapture.event E) (boot E mem reqs disk) (.call (.init l) :: evs) = some s)
    {x : Place Path} (hx : x.tail ≠ disk.logPlace E.logPath) : s.disk.get x = disk.get x := by
  obtain ⟨s₀, h₀, h⟩ := Option.bind_eq_some_iff.1 h
  have hinit : Beside E disk s₀ := beside_init (s := (boot E mem reqs disk).setApp _)
    (fun _ => rfl) rfl (fun _ _ => rfl) h₀
  have hs := run_safe (I := Beside E disk) (fun _ _ _ hI _ he => hI.event he) hinit
    (along_true s₀ evs) h
  exact hs.get x hx

/-- A file next to the directory. -/
theorem exec_elsewhere_intoLog : ∃ s,
    run (DiskCapture.event intoLog) (boot intoLog (fun _ => 0) (fun _ => 0)
      (Disk.bare.put ["notes".toList] [1, 2])) [.call (.init .c),
        .call (.recv .c ⟨8, 2, .byte⟩ worldComm)] = some s ∧
      s.disk.get ["notes".toList] = (Disk.bare.put ["notes".toList] [1, 2]).get ["notes".toList] := by
  obtain ⟨s, hs⟩ := Option.isSome_iff_exists.1 (show (run (DiskCapture.event intoLog)
    (boot intoLog (fun _ => 0) (fun _ => 0) (Disk.bare.put ["notes".toList] [1, 2]))
      [.call (.init .c), .call (.recv .c ⟨8, 2, .byte⟩ worldComm)]).isSome = true by decide)
  exact ⟨s, hs, exec_elsewhere hs (by decide)⟩

end DiskCapture

end MPIre

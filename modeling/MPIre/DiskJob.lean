import MPIre.Bystander
import MPIre.DiskCapture
/-
# A job on one disk

All processes of a job run under the capture library and share the file system they were
started in. `step` is one event of one process; a process that exits takes the job with it.

`run_apart` is about a process whose log directory no other one writes to (`OwnLog`). In every
interleaving, first calls included, its library and its log are what its own events alone make
of them. `ownLog_of_rank` says that a job with one `MPIRE_RANK` is such a job for the process of
that rank.
-/
namespace MPIre
open FileTree Run

namespace DiskCapture

variable {E : Env} {s s' : DiskCapture} {d : Disk} {x : Place Path}

/-! ## What a process does to the log of another one -/

/-- Where the records of the process go. -/
def Routed (E : Env) (lib : Capture) : Prop := lib.outputPath = [] ∨ lib.outputPath = E.logPath

theorem logPlace_nil (d : Disk) : d.logPlace [] = [] := by
  rw [Disk.logPlace_eq]
  rfl

theorem Routed.short (h : Routed E s.lib) : s.lib.outputPath.length ≤ 127 := by
  rcases h with h | h <;> rw [h]
  · exact Nat.zero_le _
  · exact E.logPath_short

theorem Routed.logPlace_ne (h : Routed E s.lib) (hroot : [] ≠ x) (hne : d.logPlace E.logPath ≠ x) :
    d.logPlace s.lib.outputPath ≠ x := by
  rcases h with h | h <;> rw [h]
  · rw [logPlace_nil]
    exact hroot
  · exact hne

variable (hne : d.logPlace E.logPath ≠ x)
include hne

theorem writeInFile_spares (hroot : [] ≠ x) (hs : Routed E s.lib ∧ Disk.Spares x d s.disk) {b : Buf}
    (h : DiskCapture.writeInFile E s b = some s') : Routed E s'.lib ∧ Disk.Spares x d s'.disk := by
  have ⟨hrouted, hspares⟩ := hs
  rcases writeInFile_some h with rfl | rfl
  · exact hs
  rcases wrote_disk E s b with hd | ⟨y, bs, hy, hd⟩
  · exact ⟨hrouted, by rw [hd]; exact hspares⟩
  · have htail : y.tail = s.disk.logPlace s.lib.outputPath :=
      Disk.locate_tail (e := some s.lib.cptWrite) hrouted.short hy
    have hout : y.tail ≠ x := by
      rw [htail, Disk.logPlace_cwd hspares.cwd]
      exact hrouted.logPlace_ne hroot hne
    exact ⟨hrouted, by rw [hd]; exact hspares.trans (Disk.put_spares hout bs)⟩

variable (hclear : d.Clear E.logPath x)
include hclear

theorem initMPIre_spares (hs : Routed E s.lib ∧ Disk.Spares x d s.disk)
    (h : initMPIre E s = some s') : Routed E s'.lib ∧ Disk.Spares x d s'.disk := by
  obtain ⟨hrouted, hspares⟩ := hs
  obtain ⟨-, ⟨-, hp, d', y, hd, hy, hdisk⟩ | ⟨-, hp, hdisk⟩⟩ := initMPIre_some h
  · have hmade := hspares.trans (Disk.prepare_spares hd (hclear.cwd hspares.cwd))
    have hout : y.tail ≠ x := by
      rw [Disk.locate_tail E.logPath_short hy, Disk.logPlace_cwd hmade.cwd]
      exact hne
    exact ⟨.inr hp, by rw [hdisk]; exact hmade.trans (Disk.put_spares hout _)⟩
  · refine ⟨?_, by rw [hdisk]; exact hspares⟩
    unfold Routed
    rw [hp]
    exact hrouted

/-- A process with another directory leaves `x` alone, whatever it does. -/
theorem event_spares (hroot : [] ≠ x) (hs : Routed E s.lib ∧ Disk.Spares x d s.disk) {ev : Event}
    (h : DiskCapture.event E s ev = some s') : Routed E s'.lib ∧ Disk.Spares x d s'.disk :=
  event_keeps (P := fun s => Routed E s.lib ∧ Disk.Spares x d s.disk) (fun _ _ _ _ h => h)
    (fun _ _ _ hs h => writeInFile_spares hne hroot hs h)
    (fun _ _ hs h => initMPIre_spares hne hclear hs h) hs h

omit hne hclear

theorem event_cwd {ev : Event} (h : DiskCapture.event E s ev = some s') :
    s'.disk.fs.cwd = s.disk.fs.cwd := by
  refine event_keeps (P := fun t => t.disk.fs.cwd = s.disk.fs.cwd) (fun _ _ _ _ h => h)
    (fun t b t' ht hw => ?_) (fun t t' ht hi => ?_) rfl h
  · rcases writeInFile_some hw with rfl | rfl
    · exact ht
    · rcases wrote_disk E t b with hd | ⟨y, bs, -, hd⟩ <;> rw [hd] <;> exact ht
  · obtain ⟨-, ⟨-, -, d', y, hd, -, hdisk⟩ | ⟨-, -, hdisk⟩⟩ := initMPIre_some hi
    · rw [hdisk]
      exact (Disk.prepare_sameFiles hd).cwd.trans ht
    · rw [hdisk, ht]

/-- The log of a process that is left alone. -/
theorem Shows.spared {c : Capture} {d' : Disk} (h : Shows E s c)
    (hs : Disk.Spares (s.disk.logPlace E.logPath) s.disk d') :
    Shows E { s with disk := d' } c :=
  ⟨h.lib, h.path, h.named, hs.ready h.ready, hs.log.trans h.log⟩

end DiskCapture

/-! ## The job -/

structure DiskJob (n : Nat) where
  libs : Fin n → Capture
  disk : Disk

namespace DiskJob

variable {n : Nat} (Es : Fin n → Env)

/-- The processes as the library is loaded into them. -/
def boot (mem : Fin n → Mem) (reqs : Fin n → Addr → Int) (disk : Disk) : DiskJob n where
  libs i := .boot (Es i) (mem i) (reqs i) ⟨none, fun _ => none⟩
  disk := disk

variable {Es} in
/-- One process, with the disk. -/
def proc (J : DiskJob n) (i : Fin n) : DiskCapture := ⟨J.libs i, J.disk⟩

def step (J : DiskJob n) (e : Fin n × Event) : Option (DiskJob n) :=
  (DiskCapture.event (Es e.1) (J.proc e.1) e.2).map fun s =>
    ⟨Function.update J.libs e.1 s.lib, s.disk⟩

/-- The log of process `k` is its own: it is not in the root, no other process has its log
there, and no process makes a directory in it. -/
structure OwnLog (disk : Disk) (k : Fin n) : Prop where
  root : [] ≠ disk.logPlace (Es k).logPath
  other : ∀ i, i ≠ k → disk.logPlace (Es i).logPath ≠ disk.logPlace (Es k).logPath
  clear : ∀ i, disk.Clear (Es i).logPath (disk.logPlace (Es k).logPath)
  free : ∀ e, disk.fs.tree.kind (entryName e :: disk.logPlace (Es k).logPath) ≠ some .dir

variable {Es} {disk : Disk} {k : Fin n} {J J' : DiskJob n} {e : Fin n × Event}
  {mem : Fin n → Mem} {reqs : Fin n → Addr → Int}

theorem step_some (h : step Es J e = some J') :
    ∃ s', DiskCapture.event (Es e.1) (J.proc e.1) e.2 = some s' ∧ J'.proc e.1 = s' ∧
      J'.disk = s'.disk ∧ ∀ i, i ≠ e.1 → J'.libs i = J.libs i := by
  obtain ⟨s', hs', rfl⟩ := Option.map_eq_some_iff.1 h
  refine ⟨s', hs', ?_, rfl, fun i hi => Function.update_of_ne hi _ _⟩
  unfold proc
  dsimp only
  rw [Function.update_self]

/-- An event of another process: the process itself is left alone. -/
theorem step_other (ha : OwnLog Es disk k) (hcwd : J.disk.fs.cwd = disk.fs.cwd)
    (hi : e.1 ≠ k) (hrouted : ∀ i, i ≠ k → DiskCapture.Routed (Es i) (J.libs i))
    (h : step Es J e = some J') :
    J'.libs k = J.libs k ∧ Disk.Spares (disk.logPlace (Es k).logPath) J.disk J'.disk ∧
      ∀ i, i ≠ k → DiskCapture.Routed (Es i) (J'.libs i) := by
  obtain ⟨s', hs', hproc, hdisk, hlibs⟩ := step_some h
  have hne : J.disk.logPlace (Es e.1).logPath ≠ disk.logPlace (Es k).logPath := by
    rw [Disk.logPlace_cwd hcwd]
    exact ha.other e.1 hi
  obtain ⟨hr, hs⟩ := DiskCapture.event_spares (s := J.proc e.1) hne
    ((ha.clear e.1).cwd hcwd) ha.root ⟨hrouted e.1 hi, .refl _ _⟩ hs'
  refine ⟨hlibs k (Ne.symm hi), hdisk ▸ hs, fun i hik => ?_⟩
  by_cases he : i = e.1
  · subst he
    rw [← hproc] at hr
    exact hr
  · rw [hlibs i he]
    exact hrouted i hik

/-- Process `k` before its first call. -/
structure Loaded (Es : Fin n → Env) (mem : Fin n → Mem) (reqs : Fin n → Addr → Int) (disk : Disk)
    (k : Fin n) (J : DiskJob n) : Prop where
  lib : J.libs k = (boot Es mem reqs disk).libs k
  spared : Disk.Spares (disk.logPlace (Es k).logPath) disk J.disk
  routed : ∀ i, i ≠ k → DiskCapture.Routed (Es i) (J.libs i)

/-- Process `k` from its first call on, beside the library with the `Dir`. -/
structure Alone (Es : Fin n → Env) (disk : Disk) (k : Fin n) (J : DiskJob n) (c : Capture) :
    Prop where
  shows : DiskCapture.Shows (Es k) (J.proc k) c
  cwd : J.disk.fs.cwd = disk.fs.cwd
  routed : ∀ i, i ≠ k → DiskCapture.Routed (Es i) (J.libs i)

theorem loaded_boot : Loaded Es mem reqs disk k (boot Es mem reqs disk) :=
  ⟨rfl, .refl _ _, fun _ _ => .inl rfl⟩

theorem Loaded.other (ha : OwnLog Es disk k) (hl : Loaded Es mem reqs disk k J) (hi : e.1 ≠ k)
    (h : step Es J e = some J') : Loaded Es mem reqs disk k J' := by
  obtain ⟨hlib, hs, hrouted⟩ := step_other ha hl.spared.cwd hi hl.routed h
  exact ⟨hlib.trans hl.lib, hl.spared.trans hs, hrouted⟩

/-- The first call of process `k`. -/
theorem Loaded.init (ha : OwnLog Es disk k) (hl : Loaded Es mem reqs disk k J) (l : Lang)
    (h : step Es J (k, .call (.init l)) = some J') :
    ∃ c, Capture.event (Es k) (.boot (Es k) (mem k) (reqs k) (disk.log (Es k).logPath))
      (.call (.init l)) = some c ∧ Alone Es disk k J' c := by
  obtain ⟨s', hs', hproc, hdisk, hlibs⟩ := step_some h
  have hcwd : J'.disk.fs.cwd = disk.fs.cwd := by
    rw [hdisk]
    exact (DiskCapture.event_cwd hs').trans hl.spared.cwd
  have hboot : J.proc k = DiskCapture.boot (Es k) (mem k) (reqs k) J.disk := by
    unfold proc
    rw [hl.lib]
    rfl
  rw [hboot] at hs'
  have hplace : J.disk.logPlace (Es k).logPath = disk.logPlace (Es k).logPath :=
    Disk.logPlace_cwd hl.spared.cwd _
  have hclear : J.disk.Clear (Es k).logPath (J.disk.logPlace (Es k).logPath) := by
    rw [hplace]
    exact (ha.clear k).cwd hl.spared.cwd
  -- a process that is not named has its log in the root
  have hnamed : (Es k).mpireRank = some ((Es k).rank worldComm) := by
    by_contra hno
    refine ha.root ?_
    rw [show (Es k).logPath = [] from if_neg hno, DiskCapture.logPlace_nil]
  have hinit : DiskCapture.initMPIre (Es k)
      ((DiskCapture.boot (Es k) (mem k) (reqs k) J.disk).setApp _) = some s' := hs'
  obtain ⟨-, ⟨-, -, d, x, hd, hx, -⟩ | ⟨hno, -, -⟩⟩ := DiskCapture.initMPIre_some hinit
  swap
  · exact absurd hnamed hno
  have hprep : J.disk.prepare (Es k).logPath = some d := hd
  have hspares := Disk.prepare_spares hprep hclear
  have hready : d.Ready (Es k).logPath := by
    refine Disk.prepare_ready hprep hclear (fun e he => ?_)
      (Disk.isDir_of_locate (Es k).logPath_short hx)
    rw [hplace] at he
    exact ha.free e (hl.spared.free _ rfl he)
  have hlog : d.log (Es k).logPath = disk.log (Es k).logPath := hspares.log.trans hl.spared.log
  have hrel := DiskCapture.shows_boot (mem k) (reqs k)
    (show (Es k).prepared J.disk = some d by
      unfold Env.prepared
      rw [if_pos hnamed, hprep]) hready l
  rw [hs', hlog] at hrel
  revert hrel
  generalize Capture.event (Es k) _ (.call (.init l)) = y
  rintro (hshows | _)
  refine ⟨_, rfl, hproc ▸ hshows, hcwd, fun i hi => ?_⟩
  rw [hlibs i hi]
  exact hl.routed i hi

/-- The step lemma for the events of the others. -/
theorem Alone.other {c : Capture} (ha : OwnLog Es disk k) (hl : Alone Es disk k J c) (hi : e.1 ≠ k)
    (h : step Es J e = some J') : Alone Es disk k J' c := by
  obtain ⟨hlib, hs, hrouted⟩ := step_other ha hl.cwd hi hl.routed h
  have hs' : Disk.Spares ((J.proc k).disk.logPlace (Es k).logPath) (J.proc k).disk J'.disk := by
    show Disk.Spares (J.disk.logPlace (Es k).logPath) J.disk J'.disk
    rw [Disk.logPlace_cwd hl.cwd]
    exact hs
  have hshows := hl.shows.spared hs'
  refine ⟨?_, hs.cwd.trans hl.cwd, hrouted⟩
  unfold proc at hshows ⊢
  rw [hlib]
  exact hshows

/-- The numbers of the records that the event can write are numbers of an `int`. -/
def Counts (c : Capture) (ev : Event) : Prop := c.cptWrite + ev.records ≤ 2 ^ 31

instance (c : Capture) (ev : Event) : Decidable (Counts c ev) :=
  inferInstanceAs (Decidable (_ ≤ _))

/-- The step lemma for its own. -/
theorem Alone.own {c : Capture} (hl : Alone Es disk k J c) {ev : Event} (hn : Counts c ev)
    (h : step Es J (k, ev) = some J') :
    ∃ c', Capture.event (Es k) c ev = some c' ∧ Alone Es disk k J' c' := by
  obtain ⟨s', hs', hproc, hdisk, hlibs⟩ := step_some h
  have hcount : DiskCapture.Counts (J.proc k) ev := by
    unfold DiskCapture.Counts
    rw [hl.shows.lib]
    exact hn
  have hrel := hl.shows.event hcount
  rw [hs'] at hrel
  revert hrel
  generalize Capture.event (Es k) c ev = y
  rintro (hshows | _)
  refine ⟨_, rfl, hproc ▸ hshows, ?_, fun i hi => ?_⟩
  · rw [hdisk]
    exact (DiskCapture.event_cwd hs').trans hl.cwd
  · rw [hlibs i hi]
    exact hl.routed i hi

/-- The run lemma. -/
theorem run_alone {es : List (Fin n × Event)} {evs : List Event} {l : Lang}
    (ha : OwnLog Es disk k) (hown : own k es = .call (.init l) :: evs)
    (hn : Along (Capture.event (Es k)) Counts
      (.boot (Es k) (mem k) (reqs k) (disk.log (Es k).logPath)) (own k es))
    (h : run (step Es) (boot Es mem reqs disk) es = some J) :
    ∃ c, run (Capture.event (Es k))
      (.boot (Es k) (mem k) (reqs k) (disk.log (Es k).logPath)) (own k es) = some c ∧
      Alone Es disk k J c := by
  obtain ⟨pre, post, rfl, hpre, hpost⟩ := own_split hown
  obtain ⟨J₁, h₁, h⟩ := run_split h
  obtain ⟨J₂, h₂, h⟩ := Option.bind_eq_some_iff.1 h
  -- nothing but others' events before the first call
  have hloaded := run_others (P := Loaded Es mem reqs disk k)
    (fun _ _ _ _ hl hi h => hl.other ha hi h) loaded_boot hpre h₁
  obtain ⟨c, hc, halone⟩ := hloaded.init ha l h₂
  rw [hown] at hn ⊢
  rw [run_cons, hc, Option.bind_some, ← hpost]
  refine run_own (R := Alone Es disk k) (p := Counts)
    (fun _ _ _ _ _ hl hi h => hl.other ha hi h) (fun _ _ _ _ hl hn h => hl.own hn h) halone ?_ h
  rw [hpost]
  exact hn.2 c hc

/-- **A log of its own.** However the events of the job are interleaved, the library of a
process whose log is apart and the log it leaves on disk are what its own events alone make of
them, from the log that was there before the job. -/
theorem run_apart {es : List (Fin n × Event)} {evs : List Event} {l : Lang}
    (ha : OwnLog Es disk k) (hown : own k es = .call (.init l) :: evs)
    (hn : Along (Capture.event (Es k)) Counts
      (.boot (Es k) (mem k) (reqs k) (disk.log (Es k).logPath)) (own k es))
    (h : run (step Es) (boot Es mem reqs disk) es = some J) :
    run (Capture.event (Es k)) (.boot (Es k) (mem k) (reqs k) (disk.log (Es k).logPath))
      (own k es) = some { J.libs k with dir := J.disk.log (Es k).logPath } := by
  obtain ⟨c, hc, halone⟩ := run_alone ha hown hn h
  have hlib : J.libs k = c.dirless := halone.shows.lib
  have hlog : J.disk.log (Es k).logPath = c.dir := halone.shows.log
  rw [hc, hlib, hlog]
  rfl

/-- A job with one `MPIRE_RANK`: the other processes have no log directory. -/
theorem ownLog_of_rank {r : Int} (hr : ∀ i, (Es i).mpireRank = some r)
    (hi : ∀ i, i ≠ k → (Es i).rank worldComm ≠ r) (hroot : [] ≠ disk.logPlace (Es k).logPath)
    (hclear : disk.Clear (Es k).logPath (disk.logPlace (Es k).logPath))
    (hfree : ∀ e, disk.fs.tree.kind (entryName e :: disk.logPlace (Es k).logPath) ≠ some .dir) :
    OwnLog Es disk k := by
  have hnone : ∀ i, i ≠ k → (Es i).logPath = [] := fun i hik => by
    refine if_neg fun h => hi i hik ?_
    exact Option.some.inj (h.symm.trans (hr i))
  refine ⟨hroot, fun i hik => ?_, fun i => ?_, hfree⟩
  · rw [hnone i hik, DiskCapture.logPlace_nil]
    exact hroot
  · by_cases hik : i = k
    · rw [hik]
      exact hclear
    · rw [hnone i hik]
      intro as has hne
      have hpre := (List.mem_inits _ _).1 has
      rw [components_nil] at hpre
      exact absurd (List.prefix_nil.1 hpre) hne

/-- The second process, which is not the captured one, writes records in the root. -/
theorem run_apart_twoReceiving :
    let es : List (Fin 2 × Event) :=
      [(1, .call (.init .c)), (1, .call (.recv .c ⟨0, 2, .byte⟩ selfComm)), (0, .call (.init .c)),
        (0, .call (.recv .c ⟨8, 2, .byte⟩ worldComm)),
        (1, .call (.recv .fortran ⟨0, 3, .byte⟩ selfComm)),
        (0, .call (.bcast .fortran ⟨4, 1, .byte⟩ 1 worldComm))]
    ∃ J, run (step twoProcesses) (boot twoProcesses (fun _ _ => 0) (fun _ _ => 0) .bare) es =
        some J ∧
      run (Capture.event (twoProcesses 0)) (.boot (twoProcesses 0) (fun _ => 0) (fun _ => 0)
        (Disk.bare.log (twoProcesses 0).logPath)) (own 0 es) =
          some { J.libs 0 with dir := J.disk.log (twoProcesses 0).logPath } := by
  intro es
  obtain ⟨J, hJ⟩ := Option.isSome_iff_exists.1 (show (run (step twoProcesses)
    (boot twoProcesses (fun _ _ => 0) (fun _ _ => 0) .bare) es).isSome = true by decide)
  have ha : OwnLog twoProcesses Disk.bare 0 :=
    ownLog_of_rank (r := 0) (fun _ => rfl) (by decide) (by decide) (by decide)
      fun e => Disk.bare_free e _
  exact ⟨J, hJ, run_apart ha rfl (by decide) hJ⟩

/-- The log of the first process is in the root, where the second one writes its record over it. -/
example :
    let Es (i : Fin 2) := { twoProcesses i with mpireOutputPath := some "/".toList }
    (run (step Es) (boot Es (fun _ _ => 0) (fun _ _ => 0) .bare)
      [(0, .call (.init .c)), (1, .call (.init .c)),
        (0, .call (.recv .c ⟨8, 2, .byte⟩ worldComm)),
        (1, .call (.recv .c ⟨0, 3, .byte⟩ selfComm))]).map
      (fun J => (J.disk.log (Es 0).logPath).record 0) = some (some [1, 1, 1]) := by
  decide

end DiskJob

end MPIre

import MPIre.DiskCapture
/-
# The files of a capture

`run_listed` says which files there are after a run of the named process whose file operations
succeed: those that were there before it, `nprocs`, and one for each number below the counter. In
the directory of its log nothing else comes or goes, and elsewhere nothing at all.

The invariant is `Listed`. It holds while the counter is an `int`, so that no name is cut; a
counter that went further does not come back.
-/
namespace MPIre
open FileTree Run

namespace DiskCapture

variable {E : Env} {disk d : Disk} {s s' : DiskCapture} {x : Place Path} {n : Nat}

/-- The file `nprocs` of the log, or a record with a number below `n`. -/
def Entry (E : Env) (disk : Disk) (n : Nat) (x : Place Path) : Prop :=
  ∃ e : Option Nat, x = entryName e :: disk.logPlace E.logPath ∧ ∀ i ∈ e, i < n

theorem entry_nprocs (n : Nat) : Entry E disk n (entryName none :: disk.logPlace E.logPath) :=
  ⟨none, rfl, fun _ h => nomatch h⟩

theorem entry_zero :
    Entry E disk 0 x ↔ x = entryName none :: disk.logPlace E.logPath := by
  constructor
  · rintro ⟨_ | i, rfl, hi⟩
    · rfl
    · exact absurd (hi i rfl) (Nat.not_lt_zero i)
  · rintro rfl
    exact entry_nprocs 0

theorem entry_succ : Entry E disk (n + 1) x ↔
    Entry E disk n x ∨ x = entryName (some n) :: disk.logPlace E.logPath := by
  constructor
  · rintro ⟨_ | i, rfl, hi⟩
    · exact .inl (entry_nprocs n)
    · rcases Nat.lt_succ_iff_lt_or_eq.1 (hi i rfl) with hlt | rfl
      · exact .inl ⟨some i, rfl, fun j hj => by cases hj; exact hlt⟩
      · exact .inr rfl
  · rintro (⟨e, rfl, he⟩ | rfl)
    · exact ⟨e, rfl, fun i hi => Nat.lt_succ_of_lt (he i hi)⟩
    · exact ⟨some n, rfl, fun j hj => by cases hj; exact Nat.lt_succ_self n⟩

/-- The files are those of `disk` and the log so far. -/
structure Listed (E : Env) (disk : Disk) (s : DiskCapture) : Prop where
  path : s.lib.outputPath = E.logPath
  cwd : s.disk.fs.cwd = disk.fs.cwd
  ready : s.disk.Ready E.logPath
  files : ∀ x, (s.disk.get x).isSome ↔ (disk.get x).isSome ∨ Entry E disk s.lib.cptWrite x

theorem Listed.wrote (h : Listed E disk s) (hf : E.FilesOk) (hn : s.lib.cptWrite < 2 ^ 31)
    (b : Buf) : Listed E disk (s.wrote E b) := by
  have hplace : s.disk.locate (s.lib.recordName s.lib.cptWrite) =
      some (entryName (some s.lib.cptWrite) :: s.disk.logPlace E.logPath) := by
    unfold Capture.recordName
    rw [h.path]
    exact h.ready.locate_fileName (E.fits_record hn)
  have hdisk : ∃ bs, (s.wrote E b).disk =
      s.disk.put (entryName (some s.lib.cptWrite) :: s.disk.logPlace E.logPath) bs := by
    unfold DiskCapture.wrote
    dsimp only
    rw [hplace]
    exact ⟨_, if_pos (by rw [hf])⟩
  obtain ⟨bs, hdisk⟩ := hdisk
  refine ⟨h.path, by rw [hdisk]; exact h.cwd, ?_, fun x => ?_⟩
  · rw [hdisk]
    exact (s.disk.put_sameDirs _ _).ready h.ready
  · rw [hdisk, Disk.isSome_put (h.ready.open _), h.files, or_assoc, Disk.logPlace_cwd h.cwd]
    show _ ↔ _ ∨ Entry E disk (s.lib.cptWrite + 1) x
    rw [entry_succ]

/-- The first call makes `nprocs`. -/
theorem listed_init (hk : E.mpireRank = some (E.rank worldComm))
    (hd : disk.prepare E.logPath = some d) (hr : d.Ready E.logPath) (hs : s.disk = disk)
    (h0 : s.lib.cptWrite = 0) (h : initMPIre E s = some s') : Listed E disk s' := by
  obtain ⟨hn, ⟨-, hp, d', x, hd', hx, hdisk⟩ | ⟨hno, -, -⟩⟩ := initMPIre_some h
  swap
  · exact absurd hk hno
  obtain rfl : d' = d := Option.some.inj (hd'.symm.trans (hs ▸ hd))
  rw [hr.locate_fileName E.fits_nprocs] at hx
  cases hx
  have hcwd := (Disk.prepare_sameFiles hd).cwd
  refine ⟨hp, by rw [hdisk]; exact hcwd, ?_, fun x => ?_⟩
  · rw [hdisk]
    exact (d'.put_sameDirs _ _).ready hr
  · rw [hdisk, Disk.isSome_put (hr.open _), Disk.prepare_get hd, Disk.logPlace_cwd hcwd, hn, h0,
      entry_zero]

/-- A further one writes it again. -/
theorem Listed.init (hk : E.mpireRank = some (E.rank worldComm)) (hs : Listed E disk s)
    (h : initMPIre E s = some s') : Listed E disk s' := by
  obtain ⟨hn, ⟨-, hp, d', x, hd', hx, hdisk⟩ | ⟨hno, -, -⟩⟩ := initMPIre_some h
  swap
  · exact absurd hk hno
  have hsame := hs.ready.prepare (Disk.prepare_ne_nil hd')
  obtain rfl : d' = s.disk := Option.some.inj (hd'.symm.trans hsame)
  rw [hs.ready.locate_fileName E.fits_nprocs] at hx
  cases hx
  refine ⟨hp, by rw [hdisk]; exact hs.cwd, ?_, fun x => ?_⟩
  · rw [hdisk]
    exact (s.disk.put_sameDirs _ _).ready hs.ready
  · rw [hdisk, Disk.isSome_put (hs.ready.open _), hs.files, hn, or_assoc, Disk.logPlace_cwd hs.cwd]
    refine or_congr_right (or_iff_left_of_imp ?_)
    rintro rfl
    exact entry_nprocs _

/-- The step lemma. -/
theorem listed_event (hk : E.mpireRank = some (E.rank worldComm)) (hf : E.FilesOk) {ev : Event}
    (hs : Listed E disk s ∨ 2 ^ 31 < s.lib.cptWrite) (h : DiskCapture.event E s ev = some s') :
    Listed E disk s' ∨ 2 ^ 31 < s'.lib.cptWrite := by
  refine event_keeps (P := fun s => Listed E disk s ∨ 2 ^ 31 < s.lib.cptWrite)
    (fun s app tab flag hs => ?_) (fun s b s' hs h => ?_) (fun s s' hs h => ?_) hs h
  · exact hs.imp_left fun hl => ⟨hl.path, hl.cwd, hl.ready, hl.files⟩
  · rcases writeInFile_some h with rfl | rfl
    · exact hs
    have hcount : (s.wrote E b).lib.cptWrite = s.lib.cptWrite + 1 := rfl
    rcases hs with hl | hover
    · by_cases hn : s.lib.cptWrite < 2 ^ 31
      · exact .inl (hl.wrote hf hn b)
      · exact .inr (by omega)
    · exact .inr (by omega)
  · rcases hs with hl | hover
    · exact .inl (hl.init hk h)
    · rw [← (initMPIre_some h).1] at hover
      exact .inr hover

/-- **The files of a capture.** -/
theorem run_listed (hk : E.mpireRank = some (E.rank worldComm)) (hf : E.FilesOk)
    (hd : disk.prepare E.logPath = some d) (hr : d.Ready E.logPath) {mem : Mem}
    {reqs : Addr → Int} {l : Lang} {evs : List Event}
    (h : run (event E) (boot E mem reqs disk) (.call (.init l) :: evs) = some s)
    (hn : s.lib.cptWrite ≤ 2 ^ 31) (x : Place Path) :
    (s.disk.get x).isSome ↔ (disk.get x).isSome ∨ Entry E disk s.lib.cptWrite x := by
  obtain ⟨s₀, h₀, h⟩ := Option.bind_eq_some_iff.1 h
  have hinit : Listed E disk s₀ := listed_init (s := (boot E mem reqs disk).setApp _) hk hd hr
    rfl rfl h₀
  have hs := run_safe (I := fun s => Listed E disk s ∨ 2 ^ 31 < s.lib.cptWrite)
    (fun _ _ _ hs _ he => listed_event hk hf hs he) (.inl hinit) (along_true s₀ evs) h
  exact (hs.resolve_right (Nat.not_lt.2 hn)).files x

/-- Of two receives and a broadcast from itself the first two are there. -/
theorem run_listed_intoLog : ∃ s, run (DiskCapture.event intoLog)
    (boot intoLog (fun _ => 0) (fun _ => 0) .bare) [.call (.init .c),
      .call (.recv .c ⟨8, 2, .byte⟩ worldComm), .call (.recv .fortran ⟨9, 1, .byte⟩ worldComm),
      .call (.bcast .c ⟨4, 1, .byte⟩ 0 worldComm)] = some s ∧
    ∀ x, (s.disk.get x).isSome ↔ (Disk.bare.get x).isSome ∨
      Entry intoLog .bare s.lib.cptWrite x := by
  obtain ⟨d, hd, hr⟩ := prepared_intoLog
  have hall : ∀ s ∈ run (DiskCapture.event intoLog)
    (boot intoLog (fun _ => 0) (fun _ => 0) .bare) [.call (.init .c),
      .call (.recv .c ⟨8, 2, .byte⟩ worldComm), .call (.recv .fortran ⟨9, 1, .byte⟩ worldComm),
      .call (.bcast .c ⟨4, 1, .byte⟩ 0 worldComm)], s.lib.cptWrite ≤ 2 ^ 31 := by decide
  obtain ⟨s, hs⟩ := Option.isSome_iff_exists.1 (show (run (DiskCapture.event intoLog)
    (boot intoLog (fun _ => 0) (fun _ => 0) .bare) [.call (.init .c),
      .call (.recv .c ⟨8, 2, .byte⟩ worldComm), .call (.recv .fortran ⟨9, 1, .byte⟩ worldComm),
      .call (.bcast .c ⟨4, 1, .byte⟩ 0 worldComm)]).isSome = true by decide)
  exact ⟨s, hs, run_listed rfl (fun _ => rfl) hd hr hs (hall s hs)⟩

end DiskCapture

end MPIre

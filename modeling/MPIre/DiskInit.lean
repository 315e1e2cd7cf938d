import MPIre.DiskCapture
/-
# The first call on disk

On the named process `init_MPIre` makes the directory of the log and opens `nprocs` in it. It
does not look at what `mkpath` returns, and `mkpath` makes no directory behind the last slash.
So whether the process gets past `MPI_Init` depends on the disk it finds; `init_iff` says how.

| here | there |
| --- | --- |
| `Disk.Makeable` | the path is a directory, or `mkpath` makes it one |
| `Disk.NprocsFree` | no directory has the name `nprocs` in it, or gets it |
-/
namespace MPIre
open FileTree

namespace FileSystem

theorem isDir_slash {fs : FileSystem} {path : Path} (hne : path ≠ []) :
    fs.IsDir (path ++ ['/']) ↔ fs.IsDir path := by
  have hslash : path ++ ['/'] ≠ [] := by simp
  rw [isDir_iff hslash, isDir_iff hne, Disk.components_dir, start_append fs hne]

/-- A path that runs through a file has a part before a slash that is one. -/
theorem Blocked.file {fs : FileSystem} {path q : Path} (hq : q ∈ prefixes [] path)
    (h : fs.Blocked q) : ∃ p ∈ prefixes [] path, fs.tree.kind (fs.place p) = some .file := by
  obtain ⟨as, has, hne, hfile⟩ := h
  have hnil : as ≠ [] := by
    rintro rfl
    have hdir : fs.tree.kind (follow (fs.start q) []) = some .dir := fs.start_dir q
    rw [hdir] at hfile
    cases hfile
  obtain ⟨p, r, rfl, rfl⟩ := exists_prefix q has hne hnil
  obtain ⟨-, rest, rfl⟩ := mem_prefixes_nil.1 hq
  have hp : p ≠ [] := by
    rintro rfl
    exact hnil rfl
  refine ⟨p, mem_prefixes_nil.2 ⟨hp, r ++ '/' :: rest, by simp⟩, ?_⟩
  rw [start_append fs hp] at hfile
  exact hfile

end FileSystem

namespace Disk

variable {d d' : Disk} {path : Path}

/-- No part of the path before a slash is a file, and the path is a directory or leads where
such a part does. -/
def Makeable (d : Disk) (path : Path) : Prop :=
  (∀ q ∈ prefixes [] path, d.fs.tree.kind (d.fs.place q) ≠ some .file) ∧
    (d.fs.tree.kind (d.fs.place path) = some .dir ∨
      ∃ q ∈ prefixes [] path, d.fs.place q = d.fs.place path)

instance (d : Disk) (path : Path) : Decidable (d.Makeable path) :=
  inferInstanceAs (Decidable (_ ∧ _))

def NprocsFree (d : Disk) (path : Path) : Prop :=
  d.fs.tree.kind (entryName none :: d.logPlace path) ≠ some .dir ∧
    ∀ q ∈ prefixes [] path, d.fs.place q ≠ entryName none :: d.logPlace path

instance (d : Disk) (path : Path) : Decidable (d.NprocsFree path) :=
  inferInstanceAs (Decidable (_ ∧ _))

/-- A disk with the directory made. -/
theorem Makeable.of_isDir (hne : path ≠ []) (h : d.fs.IsDir path) : d.Makeable path := by
  have hdirs := (FileSystem.isDir_iff hne).1 h
  refine ⟨fun q hq hfile => ?_, .inl (hdirs _ List.prefix_rfl)⟩
  obtain ⟨-, r, hr⟩ := mem_prefixes_nil.1 hq
  have hd := hdirs (components q) (by rw [hr, components_slash]; exact List.prefix_append _ _)
  rw [← FileSystem.place_of_mem hq, hfile] at hd
  cases hd

/-- A path to a file cannot be made a directory. -/
theorem not_makeable_of_file (h : d.fs.stat path = some .file) : ¬ d.Makeable path := by
  have hfile : d.fs.tree.kind (d.fs.place path) = some .file := by
    unfold FileSystem.stat at h
    split at h
    · cases h
    · obtain ⟨x, hw, hx⟩ := Option.bind_eq_some_iff.1 (Option.filter_eq_some_iff.1 h).1
      obtain ⟨rfl, -⟩ := Tree.walk_eq_some_iff.1 hw
      exact hx
  rintro ⟨hfiles, hd | ⟨q, hq, hplace⟩⟩
  · rw [hfile] at hd
    cases hd
  · exact hfiles q hq (hplace ▸ hfile)

/-- What `init_MPIre` finds after making the directory: nothing new if there is something, or
everything made up to the last slash, or a part of the path that is a file. -/
theorem prepare_outcome (hne : path ≠ []) (hnul : nul ∉ path) : ∃ d', d.prepare path = some d' ∧
    (d.fs.stat path = some .dir ∧ d' = d ∨ d.fs.stat path = some .file ∧ d' = d ∨
      FileSystem.Made d.fs (prefixes [] path) d'.fs ∨
      ∃ q ∈ prefixes [] path, d.fs.tree.kind (d.fs.place q) = some .file) := by
  unfold prepare
  cases hstat : d.fs.stat path with
  | some kind =>
    rw [if_neg (Option.some_ne_none kind)]
    cases kind with
    | dir => exact ⟨d, rfl, .inl ⟨rfl, rfl⟩⟩
    | file => exact ⟨d, rfl, .inr (.inl ⟨rfl, rfl⟩)⟩
  | none =>
    have hstring : cString path = path := cString_eq hnul
    have hcall : mkpath FileSystem.mkdir d.fs path = _ := mkpath_eq d.fs (by rwa [hstring])
    rw [if_pos rfl, hcall, hstring]
    refine ⟨_, rfl, ?_⟩
    have hstart : FileSystem.Made d.fs (prefixes [] []) d.fs := ⟨rfl, grown_nil d.fs.tree⟩
    rcases FileSystem.made_mkdirs path hstart with ⟨-, q, hq, hb⟩ | ⟨-, -, hmade⟩
    · exact .inr (.inr (.inr (hb.file hq)))
    · rw [List.nil_append] at hmade
      exact .inr (.inr (.inl hmade))

theorem prepare_isDir_iff (hne : path ≠ []) (hnul : nul ∉ path) (h : d.prepare path = some d') :
    d'.fs.IsDir path ↔ d.Makeable path := by
  obtain ⟨d'', hd'', ⟨hs, rfl⟩ | ⟨hs, rfl⟩ | hmade | ⟨q, hq, hfile⟩⟩ :=
    prepare_outcome (d := d) hne hnul <;>
    obtain rfl : d'' = d' := Option.some.inj (hd''.symm.trans h)
  · exact iff_of_true hs (.of_isDir hne hs)
  · refine iff_of_false (fun hd => ?_) (not_makeable_of_file hs)
    rw [show d''.fs.stat path = some .dir from hd] at hs
    cases hs
  · rw [FileSystem.isDir_iff hne, ← FileSystem.isDirs_iff hne]
    exact hmade.isDirs_iff hne
  · refine iff_of_false (fun hd => ?_) fun hm => hm.1 q hq hfile
    have hsame := prepare_sameFiles h
    refine (Makeable.of_isDir hne hd).1 q hq ?_
    rw [hsame.place]
    exact (hsame.file _).2 hfile

/-- Where the directory is made, `nprocs` is no directory if it was none and becomes none. -/
theorem prepare_nprocs_iff (hne : path ≠ []) (hnul : nul ∉ path) (h : d.prepare path = some d')
    (hm : d.Makeable path) :
    d'.fs.tree.kind (entryName none :: d'.logPlace path) ≠ some .dir ↔ d.NprocsFree path := by
  rw [logPlace_cwd (prepare_sameFiles h).cwd]
  unfold NprocsFree
  obtain ⟨d'', hd'', ⟨hs, rfl⟩ | ⟨hs, rfl⟩ | hmade | ⟨q, hq, hfile⟩⟩ :=
    prepare_outcome (d := d) hne hnul <;>
    obtain rfl : d'' = d' := Option.some.inj (hd''.symm.trans h)
  · refine ⟨fun hk => ⟨hk, fun q hq he => hk ?_⟩, fun hk => hk.1⟩
    obtain ⟨-, r, hr⟩ := mem_prefixes_nil.1 hq
    have hd := (FileSystem.isDir_iff hne).1 hs (components q)
      (by rw [hr, components_slash]; exact List.prefix_append _ _)
    rw [← FileSystem.place_of_mem hq, he] at hd
    exact hd
  · exact absurd hm (not_makeable_of_file hs)
  · rw [ne_eq, hmade.grown.dir_iff, not_or, not_and', List.mem_map]
    refine and_congr_right fun _ => ⟨fun hn q hq he => ?_, fun hn ⟨q, hq, he⟩ => ?_⟩
    · exact hn ⟨q, hq, he⟩ (he ▸ hm.1 q hq)
    · exact absurd he (hn q hq)
  · exact absurd hfile (hm.1 q hq)

/-- When a name in the directory of a log can be opened. -/
theorem locate_isSome_iff (hp : path.length ≤ 127) {e : Option Nat} (hf : path.Fits e) :
    (d.locate (fileName path e)).isSome ↔ d.fs.IsDir (path ++ ['/']) ∧
      d.fs.tree.kind (entryName e :: d.logPlace path) ≠ some .dir := by
  constructor
  · intro h
    obtain ⟨x, hx⟩ := Option.isSome_iff_exists.1 h
    have hdir := isDir_of_locate hp hx
    rw [locate_fileName hdir hf] at h
    refine ⟨hdir, fun hk => ?_⟩
    rw [if_pos hk] at h
    cases h
  · rintro ⟨hdir, hfree⟩
    rw [locate_fileName hdir hf, if_neg hfree]
    rfl

end Disk

namespace DiskCapture

variable {E : Env}

theorem initMPIre_isSome (hk : E.mpireRank = some (E.rank worldComm)) (s : DiskCapture) :
    (initMPIre E s).isSome ↔ E.nprocsOpens = true ∧ ∃ d, s.disk.prepare E.logPath = some d ∧
      (d.locate (fileName E.logPath none)).isSome := by
  have hp : E.logPath =
      snprintf 128 (E.mpireOutputPath.getD (defaultPath (E.rank worldComm))) := if_pos hk
  unfold initMPIre
  rw [hk]
  dsimp only
  rw [if_pos rfl, ← hp, ← fileName_nprocs]
  cases s.disk.prepare E.logPath with
  | none => simp
  | some d =>
    cases E.nprocsOpens with
    | false => simp
    | true =>
      simp only [Option.bind_eq_bind, Option.bind_some, if_true, true_and, Option.some.injEq,
        exists_eq_left']
      cases d.locate (nprocsName E.logPath) <;> simp

/-- **The first call.** The named process gets past `MPI_Init` just if its path is not empty and
is a directory or can be made one, and `nprocs` can be opened there. -/
theorem init_iff (hk : E.mpireRank = some (E.rank worldComm)) (hnul : nul ∉ E.logPath)
    (s : DiskCapture) (l : Lang) :
    (event E s (.call (.init l))).isSome ↔ E.nprocsOpens = true ∧ E.logPath ≠ [] ∧
      s.disk.Makeable E.logPath ∧ s.disk.NprocsFree E.logPath := by
  show (initMPIre E (s.setApp _)).isSome ↔ _
  rw [initMPIre_isSome hk]
  refine and_congr_right fun _ => ?_
  show (∃ d, s.disk.prepare E.logPath = some d ∧ _) ↔ _
  constructor
  · rintro ⟨d, hd, hopen⟩
    have hne := Disk.prepare_ne_nil hd
    obtain ⟨hdir, hfree⟩ := (Disk.locate_isSome_iff E.logPath_short E.fits_nprocs).1 hopen
    rw [FileSystem.isDir_slash hne, Disk.prepare_isDir_iff hne hnul hd] at hdir
    exact ⟨hne, hdir, (Disk.prepare_nprocs_iff hne hnul hd hdir).1 hfree⟩
  · rintro ⟨hne, hmake, hfree⟩
    obtain ⟨d, hd, -⟩ := Disk.prepare_outcome (d := s.disk) hne hnul
    refine ⟨d, hd, (Disk.locate_isSome_iff E.logPath_short E.fits_nprocs).2 ⟨?_, ?_⟩⟩
    · rw [FileSystem.isDir_slash hne, Disk.prepare_isDir_iff hne hnul hd]
      exact hmake
    · exact (Disk.prepare_nprocs_iff hne hnul hd hmake).2 hfree

theorem init_iff_intoLog :
    (event intoLog (boot intoLog (fun _ => 0) (fun _ => 0) .bare) (.call (.init .c))).isSome ↔
      intoLog.nprocsOpens = true ∧ intoLog.logPath ≠ [] ∧ Disk.bare.Makeable intoLog.logPath ∧
        Disk.bare.NprocsFree intoLog.logPath :=
  init_iff rfl (by decide) _ .c

/-- The path of the tutorial ends without a slash, and is not made. -/
example : let E := fourProcessesIn "your/path".toList
    (event E (boot E (fun _ => 0) (fun _ => 0) .bare) (.call (.init .c))).isSome = false := by
  decide

end DiskCapture

end MPIre

import MPIre.Chronicle
import MPIre.ReplayRun
/-
# The names of the log files

Both libraries name record `i` by `snprintf(filename, 1024, "%s/%d", …)` from their copy
of the directory string. The copy of the capture library has 128 characters (capture:16,
94-97), that of the replay library 1024 (replay:17, 59-62). So they agree exactly on
strings of at most 127 characters (`namesShared_iff`); the numbers stay apart in either
library, as long as the name fits.

| here | there |
| --- | --- |
| `decimal`                    | `%d` of a number that is not negative |
| `Capture.outputPath`         | `MPIre_output_path` |
| `Replay.inputPath`           | `MPIre_input_path` |
| `recordName`                 | the file name of `write_in_file` (42-43), of `read_in_file` (27-28) |
| `nprocsName`                 | the file name of `init_MPIre` (capture:100, replay:66) |
-/
namespace MPIre
open Gather Run

def decimal (i : Nat) : Path := Nat.toDigits 10 i

def recordName (path : Path) (i : Nat) : Path := snprintf 1024 (path ++ '/' :: decimal i)

def nprocsName (path : Path) : Path := snprintf 1024 (path ++ "/nprocs".toList)

def Capture.recordName (s : Capture) (i : Nat) : Path := MPIre.recordName s.outputPath i

def Capture.nprocsName (s : Capture) : Path := MPIre.nprocsName s.outputPath

def Replay.recordName (r : Replay) (i : Nat) : Path := MPIre.recordName r.inputPath i

def Replay.nprocsName (r : Replay) : Path := MPIre.nprocsName r.inputPath

/-- Both libraries mean the same file by record `i` and by `nprocs`, and neither means
the same file by the records `i` and `j`. -/
def NamesShared (s : Capture) (r : Replay) (i j : Nat) : Prop :=
  s.recordName i = r.recordName i ∧ s.nprocsName = r.nprocsName ∧
    (i ≠ j → s.recordName i ≠ s.recordName j ∧ r.recordName i ≠ r.recordName j)

/-- The buffer of the replay library holds the string, a separator and the number. -/
def Path.Holds (p : Path) (i : Nat) : Prop := p.length + 1 + (decimal i).length ≤ 1023

instance (p : Path) (i : Nat) : Decidable (p.Holds i) :=
  inferInstanceAs (Decidable (p.length + 1 + (decimal i).length ≤ 1023))

theorem decimal_injective : Function.Injective decimal := by
  intro i j h
  have hi : Nat.ofDigitChars 10 (decimal i) 0 = i := Nat.ofDigitChars_ten_toDigits
  have hj : Nat.ofDigitChars 10 (decimal j) 0 = j := Nat.ofDigitChars_ten_toDigits
  rw [← hi, h, hj]

theorem snprintf_length (size : Nat) (p : Path) :
    (snprintf size p).length = min (size - 1) p.length := List.length_take

theorem snprintf_eq {size : Nat} {p : Path} (h : p.length ≤ size - 1) : snprintf size p = p :=
  List.take_of_length_le h

theorem recordName_length {p : Path} {i : Nat} (h : p.Holds i) :
    (recordName p i).length = p.length + 1 + (decimal i).length := by
  unfold Path.Holds at h
  rw [recordName, snprintf_length, List.length_append, List.length_cons]
  omega

/-- Names that fit are different for different numbers. -/
theorem recordName_inj {p : Path} {i j : Nat} (hi : p.Holds i) (hj : p.Holds j)
    (h : recordName p i = recordName p j) : i = j := by
  have hfull : ∀ k, p.Holds k → recordName p k = p ++ '/' :: decimal k := by
    intro k hk
    unfold Path.Holds at hk
    refine snprintf_eq ?_
    rw [List.length_append, List.length_cons]
    omega
  rw [hfull i hi, hfull j hj] at h
  exact decimal_injective (List.cons.inj (List.append_cancel_left h)).2

/-- A shorter copy of the string fits too. -/
theorem Path.Holds.snprintf {p : Path} {i : Nat} (h : p.Holds i) (size : Nat) :
    (MPIre.snprintf size p).Holds i := by
  unfold Path.Holds at h ⊢
  rw [snprintf_length]
  omega

/-! ## The copies -/

theorem Capture.exec_path {E : Env} {mem : Mem} {reqs : Addr → Int} {dir : Dir}
    {evs : List Event} {s : Capture} {p : Path} (hr : E.mpireRank = some (E.rank worldComm))
    (hp : E.mpireOutputPath = some p) (hs : Capture.exec E mem reqs dir evs = some s) :
    s.outputPath = snprintf 128 p := by
  obtain ⟨s₀, h₀, hs⟩ := Option.bind_eq_some_iff.1 hs
  obtain ⟨-, rfl⟩ := Capture.initMPIre_chosen hr h₀
  have hstep : ∀ (s s' : Capture) (ev : Event), s.outputPath =
      snprintf 128 (E.mpireOutputPath.getD (defaultPath (E.rank worldComm))) →
      Capture.event E s ev = some s' → s'.outputPath =
        snprintf 128 (E.mpireOutputPath.getD (defaultPath (E.rank worldComm))) := by
    intro s s' ev hI he
    cases ev with
    | call c => exact Capture.step_path hr hI he
    | compute f | setenv v | copy dst src =>
      cases he
      exact hI
  have h := run_safe (fun _ _ _ hI _ he => hstep _ _ _ hI he) rfl (along_true _ evs) hs
  rw [h, hp]
  rfl

theorem Replay.exec_path {E : Env} {mem : Mem} {dir : Dir} {hks : List Replay.Hook} {r : Replay}
    {p : Path} (hp : E.mpireInputPath = some p) (hr : Replay.exec E mem dir hks = some r) :
    r.inputPath = snprintf 1024 p := by
  obtain ⟨r₀, h₀, hr⟩ := Option.bind_eq_some_iff.1 hr
  rcases Replay.mpiInit_some h₀ with ⟨hi, -⟩ | ⟨-, rank, size, -, -, rfl⟩
  · cases hi
  · obtain ⟨hsite, -⟩ := Replay.run_site ⟨rfl, rfl, rfl, rfl, rfl⟩ Htable.sound_nil hr
    rw [hsite.path, hp]
    rfl

/-- **Record names.** Given one directory string, the libraries share their file names
if and only if it has at most 127 characters. -/
theorem namesShared_iff {E E' : Env} {mem mem' : Mem} {reqs : Addr → Int} {dir dir' : Dir}
    {evs : List Event} {hks : List Replay.Hook} {s : Capture} {r : Replay} {p : Path} {i j : Nat}
    (hrank : E.mpireRank = some (E.rank worldComm)) (hp : E.mpireOutputPath = some p)
    (hp' : E'.mpireInputPath = some p) (hs : Capture.exec E mem reqs dir evs = some s)
    (hr : Replay.exec E' mem' dir' hks = some r) (hi : p.Holds i) (hj : p.Holds j) :
    NamesShared s r i j ↔ p.length ≤ 127 := by
  have hout := Capture.exec_path hrank hp hs
  have hin := Replay.exec_path hp' hr
  have hwhole : snprintf 1024 p = p := by
    unfold Path.Holds at hi
    exact snprintf_eq (by omega)
  rw [hwhole] at hin
  unfold NamesShared Capture.recordName Capture.nprocsName Replay.recordName Replay.nprocsName
  rw [hout, hin]
  constructor
  · rintro ⟨hsame, -⟩
    have hlen := congrArg List.length hsame
    rw [recordName_length (hi.snprintf 128), recordName_length hi, snprintf_length] at hlen
    omega
  · intro hshort
    have hcopy : snprintf 128 p = p := snprintf_eq hshort
    rw [hcopy]
    have hne : i ≠ j → recordName p i ≠ recordName p j := fun hij h =>
      hij (recordName_inj hi hj h)
    exact ⟨rfl, rfl, fun hij => ⟨hne hij, hne hij⟩⟩

/-- The captured process is rank 0 of four, with `p` for the directory. -/
def fourProcessesIn (p : Path) : Env :=
  { fourProcesses with mpireOutputPath := some p, mpireInputPath := some p }

theorem holds_replicate {n i : Nat} (c : Char) (h : n + 1 + (decimal i).length ≤ 1023) :
    Path.Holds (List.replicate n c) i := by
  unfold Path.Holds
  rw [List.length_replicate]
  exact h

/-- The longest string that both copies hold. -/
theorem namesShared_longest :
    let E := fourProcessesIn (List.replicate 127 'd')
    NamesShared (Capture.start E (fun _ => 0) (fun _ => 0) ⟨none, fun _ => none⟩)
      (Replay.start E E (fun _ => 0) ⟨some 4, fun _ => none⟩) 0 2147483647 := by
  intro E
  have hs : Capture.exec E (fun _ => 0) (fun _ => 0) ⟨none, fun _ => none⟩ [] =
      some (Capture.start E (fun _ => 0) (fun _ => 0) ⟨none, fun _ => none⟩) := rfl
  have hr : Replay.exec E (fun _ => 0) ⟨some 4, fun _ => none⟩ [] =
      some (Replay.start E E (fun _ => 0) ⟨some 4, fun _ => none⟩) := rfl
  have hi : Path.Holds (List.replicate 127 'd') 0 := holds_replicate 'd' (by decide)
  have hj : Path.Holds (List.replicate 127 'd') 2147483647 := holds_replicate 'd' (by decide)
  exact (namesShared_iff rfl rfl rfl hs hr hi hj).2 (List.length_replicate ▸ Nat.le_refl 127)

/-- One character more. -/
theorem namesShared_cut :
    let E := fourProcessesIn (List.replicate 128 'd')
    ¬ NamesShared (Capture.start E (fun _ => 0) (fun _ => 0) ⟨none, fun _ => none⟩)
      (Replay.start E E (fun _ => 0) ⟨some 4, fun _ => none⟩) 0 1 := by
  intro E h
  have h0 : Path.Holds (List.replicate 128 'd') 0 := holds_replicate 'd' (by decide)
  have hlen : (recordName (snprintf 128 (List.replicate 128 'd')) 0).length =
      (recordName (snprintf 1024 (List.replicate 128 'd')) 0).length := congrArg List.length h.1
  rw [recordName_length (h0.snprintf 128), recordName_length (h0.snprintf 1024), snprintf_length,
    snprintf_length, List.length_replicate] at hlen
  revert hlen
  decide

end MPIre

import MPIre.DiskJob
import MPIre.DiskReplay
import MPIre.LinkedRoundTrip
/-
# Record and replay of a job on one disk

Every process of a job runs a program of its own, in any order of turns and with its calls
hooked by the capture library on the disk they share. Afterwards the process of one rank is
replayed alone, by the replay library on that disk. `job_roundTrip` says that it makes its
calls again and that its memory is that of the job, turn by turn.

Between the job and the replay stand the two libraries over a `Dir`: the job is led back to
the process alone (`turns_alone`), and its log is the one that is found (`Finds`).
-/
namespace MPIre
open Run

namespace DiskJob

variable {n : Nat}

/-- The calls each process has made since `MPI_Init`, if it is initialised. -/
abbrev Calls (n : Nat) := Fin n → Option (List Call)

/-- One turn of one process, the first one being `MPI_Init`. -/
def turn (progs : Fin n → Program) (Es : Fin n → Env) (x : DiskJob n × Calls n) (i : Fin n) :
    Option (DiskJob n × Calls n) :=
  match x.2 i with
  | none => (step Es x.1 (i, .call (.init .c))).map (·, Function.update x.2 i (some []))
  | some cs =>
    let (_, c) := progs i (x.1.libs i).app.mem
    (run (step Es) x.1 [(i, .compute fun m => (progs i m).1), (i, .call c)]).map
      (·, Function.update x.2 i (some (cs ++ [c])))

end DiskJob

/-- One turn under the replay library on disk, keeping the list of calls made. -/
def Program.diskReplay (prog : Program) (E : Env) (x : DiskReplay × List Call) (_ : Unit) :
    Option (DiskReplay × List Call) :=
  let (m, c) := prog x.1.lib.mem
  (DiskReplay.hook E { x.1 with lib := { x.1.lib with mem := m } } (.call c)).map (·, x.2 ++ [c])

/-- The records of the next call have numbers of an `int`. -/
def Program.Numbers (prog : Program) (y : Capture × List Call) (_ : Unit) : Prop :=
  y.1.cptWrite + (prog y.1.app.mem).2.records ≤ 2 ^ 31

instance (prog : Program) (y : Capture × List Call) (i : Unit) : Decidable (prog.Numbers y i) :=
  inferInstanceAs (Decidable (_ ≤ _))

namespace DiskJob

variable {n : Nat} {progs : Fin n → Program} {Es : Fin n → Env} {disk : Disk} {k i : Fin n}
  {x x' : DiskJob n × Calls n} {J J' : DiskJob n}
  {mem : Fin n → Mem} {reqs : Fin n → Addr → Int}

/-! ## One process of the job -/

/-- What the events of other processes keep, their turns do. -/
theorem turn_other {P : DiskJob n → Prop}
    (hP : ∀ J i ev J', P J → i ≠ k → step Es J (i, ev) = some J' → P J') (hi : i ≠ k) (hx : P x.1)
    (h : turn progs Es x i = some x') : P x'.1 ∧ x'.2 k = x.2 k := by
  unfold turn at h
  split at h
  · obtain ⟨J', hJ', rfl⟩ := Option.map_eq_some_iff.1 h
    exact ⟨hP x.1 i _ J' hx hi hJ', Function.update_of_ne (Ne.symm hi) _ _⟩
  · obtain ⟨J', hJ', rfl⟩ := Option.map_eq_some_iff.1 h
    refine ⟨run_others hP hx ?_ hJ', Function.update_of_ne (Ne.symm hi) _ _⟩
    rw [own_cons_ne hi, own_cons_ne hi, own_nil]

/-- A turn of the process itself, after its first one. -/
theorem turn_own {c : Capture} {cs : List Call} (hl : Alone Es disk k x.1 c) (hcs : x.2 k = some cs)
    (hn : (progs k).Numbers (c, cs) ()) (h : turn progs Es x k = some x') :
    ∃ y, (progs k).capture (Es k) (c, cs) () = some y ∧ Alone Es disk k x'.1 y.1 ∧
      x'.2 k = some y.2 := by
  have hmem : (x.1.libs k).app.mem = c.app.mem := by
    rw [show x.1.libs k = c.dirless from hl.shows.lib]
    rfl
  unfold turn at h
  rw [hcs] at h
  dsimp only at h
  rw [hmem] at h
  obtain ⟨J₂, h₂, rfl⟩ := Option.map_eq_some_iff.1 h
  rw [run_cons] at h₂
  obtain ⟨J₁, h₁, h₂⟩ := Option.bind_eq_some_iff.1 h₂
  rw [run_single] at h₂
  have hcount : Counts c (.compute fun m => (progs k m).1) := Nat.le_of_add_right_le hn
  obtain ⟨c₁, hc₁, hl₁⟩ := hl.own hcount h₁
  cases hc₁
  have hcall : Counts { c with app := { c.app with mem := (progs k c.app.mem).1 } }
      (.call (progs k c.app.mem).2) := hn
  obtain ⟨c₂, hc₂, hl₂⟩ := hl₁.own hcall h₂
  have hstep : Capture.step (Es k) { c with app := { c.app with mem := (progs k c.app.mem).1 } }
      (progs k c.app.mem).2 = some c₂ := hc₂
  refine ⟨(c₂, cs ++ [(progs k c.app.mem).2]), ?_, hl₂, Function.update_self _ _ _⟩
  rw [Program.capture_eq, hstep]
  rfl

/-- After any turns of the job, the process has done what it does alone. -/
theorem turns_alone (hE : (Es k).Captures) (ha : OwnLog Es disk k) {m : Nat}
    (hn : Along ((progs k).capture (Es k)) (progs k).Numbers
      (.start (Es k) (mem k) (reqs k) (disk.log (Es k).logPath), []) (List.replicate m ()))
    {sched : List (Fin n)} (hm : sched.count k ≤ m + 1)
    (h : run (turn progs Es) (boot Es mem reqs disk, fun _ => none) sched = some x) :
    (sched.count k = 0 ∧ Loaded Es mem reqs disk k x.1 ∧ x.2 k = none) ∨
      ∃ j y, sched.count k = j + 1 ∧ run ((progs k).capture (Es k))
        (.start (Es k) (mem k) (reqs k) (disk.log (Es k).logPath), []) (List.replicate j ()) =
          some y ∧ Alone Es disk k x.1 y.1 ∧ x.2 k = some y.2 := by
  induction sched using List.reverseRecOn generalizing x with
  | nil =>
    cases h
    exact .inl ⟨rfl, loaded_boot, rfl⟩
  | append_singleton sched i ih =>
    obtain ⟨x₁, h₁, h⟩ := run_split h
    rw [run_single] at h
    rw [List.count_append, List.count_singleton] at hm ⊢
    by_cases hi : i = k
    · subst hi
      rw [beq_self_eq_true, if_pos rfl] at hm ⊢
      rcases ih (by omega) h₁ with ⟨h0, hl, hnone⟩ | ⟨j, y, hj, hy, hl, hsome⟩
      · -- the first turn
        unfold turn at h
        rw [hnone] at h
        obtain ⟨J, hJ, rfl⟩ := Option.map_eq_some_iff.1 h
        obtain ⟨c, hc, hl'⟩ := hl.init ha .c hJ
        have hstart : Capture.event (Es i) (.boot (Es i) (mem i) (reqs i)
            (disk.log (Es i).logPath)) (.call (.init .c)) =
            some (.start (Es i) (mem i) (reqs i) (disk.log (Es i).logPath)) :=
          Capture.mpiInit_boot hE _ _ _
        rw [hstart] at hc
        cases hc
        exact .inr ⟨0, _, by rw [h0], rfl, hl', Function.update_self _ _ _⟩
      · have hnum : (progs i).Numbers y () :=
          along_iff.1 hn (List.replicate j ()) () (List.replicate (m - j - 1) ())
            (by rw [← List.replicate_succ, List.replicate_append_replicate]; congr; omega) y hy
        obtain ⟨y', hy', hl', hsome'⟩ := turn_own hl hsome hnum h
        refine .inr ⟨j + 1, y', by rw [hj], ?_, hl', hsome'⟩
        rw [List.replicate_succ', run_append, hy, Option.bind_some, run_single, hy']
    · rw [beq_eq_false_iff_ne.2 hi, if_neg Bool.false_ne_true] at hm ⊢
      rcases ih (by omega) h₁ with ⟨h0, hl, hnone⟩ | ⟨j, y, hj, hy, hl, hsome⟩
      · obtain ⟨hl', hcalls⟩ := turn_other (P := Loaded Es mem reqs disk k)
          (fun _ _ _ _ hl hi h => hl.other ha hi h) hi hl h
        exact .inl ⟨h0, hl', hcalls.trans hnone⟩
      · obtain ⟨hl', hcalls⟩ := turn_other (P := fun J => Alone Es disk k J y.1)
          (fun _ _ _ _ hl hi h => hl.other ha hi h) hi hl h
        exact .inr ⟨j, y, hj, hy, hl', hcalls.trans hsome⟩

end DiskJob

/-! ## The replay -/

namespace Program

variable {prog : Program} {E E' : Env} {d : Disk}

/-- One turn under either replay library. -/
theorem replay_finds (hshort : E.readPath.length ≤ 1012)
    (hdir : d.fs.IsDir (E.readPath ++ ['/']))
    {z : Replay × List Call} {w : DiskReplay × List Call}
    (h : DiskReplay.Finds E d w.1 z.1 ∧ w.2 = z.2)
    (hn : z.1.cptRead + (prog z.1.mem).2.records ≤ 2 ^ 31) :
    Option.Rel (fun w z => DiskReplay.Finds E d w.1 z.1 ∧ w.2 = z.2) (prog.diskReplay E w ())
      (prog.replay E z ()) := by
  obtain ⟨hfinds, hcalls⟩ := h
  obtain ⟨⟨lib, d₀⟩, calls⟩ := w
  obtain ⟨rfl, rfl, hp, hi, hl⟩ := hfinds
  obtain rfl : calls = z.2 := hcalls
  have hset : DiskReplay.Finds E d₀ ⟨{ z.1.dirless with mem := (prog z.1.mem).1 }, d₀⟩
      { z.1 with mem := (prog z.1.mem).1 } := ⟨rfl, rfl, hp, hi, hl⟩
  rw [replay_eq]
  exact rel_map (hset.hook hshort hdir (k := .call (prog z.1.mem).2) hn) fun _ _ h => ⟨h, rfl⟩

end Program

open DiskJob

/-- The process `k` of the job, replayed on the disk that the job leaves: after every turn it
has had in the job, its calls and its memory are those of the job. -/
def JobRoundTrip {n : Nat} (progs : Fin n → Program) (Es : Fin n → Env) (E' : Env)
    (mem : Fin n → Mem) (reqs : Fin n → Addr → Int) (disk : Disk) (sched : List (Fin n))
    (k : Fin n) (x : DiskJob n × Calls n) : Prop :=
  ∃ r, DiskReplay.hook E' (.boot (mem k) x.1.disk) (.call (.init .c)) = some r ∧
    ∀ pre, pre <+: sched → ∀ j, pre.count k = j + 1 → ∃ x' w,
      run (turn progs Es) (boot Es mem reqs disk, fun _ => none) pre = some x' ∧
      run ((progs k).diskReplay E') (r, []) (List.replicate j ()) = some w ∧
      x'.2 k = some w.2 ∧ w.1.lib.mem = (x'.1.libs k).app.mem ∧
      w.1.lib.cptRead = (x'.1.libs k).cptWrite

variable {n m : Nat} {progs : Fin n → Program} {Es : Fin n → Env} {E' : Env} {k : Fin n}
  {disk : Disk}

/-- **Record/replay of a job.** -/
theorem job_roundTrip (hE : (Es k).Captures) (hE' : E'.Replays (Es k))
    (hpath : E'.readPath = (Es k).logPath) (hact : (Es k).mpireActiveDump ≠ some 0)
    (ha : OwnLog Es disk k) (mem : Fin n → Mem) (reqs : Fin n → Addr → Int)
    (hok : Along ((progs k).capture (Es k)) ((progs k).Ok (Es k))
      (.start (Es k) (mem k) (reqs k) (disk.log (Es k).logPath), []) (List.replicate m ()))
    (hnum : Along ((progs k).capture (Es k)) (progs k).Numbers
      (.start (Es k) (mem k) (reqs k) (disk.log (Es k).logPath), []) (List.replicate m ()))
    {sched : List (Fin n)} (hm : sched.count k = m + 1) {x : DiskJob n × Calls n}
    (hx : run (turn progs Es) (boot Es mem reqs disk, fun _ => none) sched = some x) :
    JobRoundTrip progs Es E' mem reqs disk sched k x := by
  obtain ⟨y, hy, hnprocs, hreplay⟩ := Program.replays hE hE' hact hok
  obtain ⟨h0, -, -⟩ | ⟨j, y', hj, hy', halone, -⟩ := turns_alone hE ha hnum (by omega) hx
  · omega
  obtain rfl : j = m := by omega
  obtain rfl : y' = y := Option.some.inj (hy'.symm.trans hy)
  -- the disk holds the log of the process alone
  have hlog : x.1.disk.log E'.readPath = y'.1.dir := by
    rw [hpath]
    exact halone.shows.log
  have hdir : x.1.disk.fs.IsDir (E'.readPath ++ ['/']) := by
    rw [hpath]
    exact halone.shows.ready.dir
  have hshort : E'.readPath.length ≤ 1012 := by
    rw [hpath]
    exact (Es k).logPath_short.trans (by decide)
  have hinit := DiskReplay.finds_init hshort hdir (mem k)
  rw [hlog, Replay.mpiInit_boot hE hE' (mem k) hnprocs] at hinit
  obtain ⟨r, hr, hfinds⟩ := exists_of_rel hinit
  -- where the capture counts within an `int`, the replay does
  have hcount : Along ((progs k).replay E')
      (fun z _ => z.1.cptRead + (progs k z.1.mem).2.records ≤ 2 ^ 31)
      (Replay.start E' (Es k) (mem k) y'.1.dir, []) (List.replicate j ()) := by
    refine along_iff.2 fun pre i post hsplit z hz => ?_
    obtain ⟨hlen, hpre, hpost⟩ := List.replicate_eq_append_iff.1 hsplit
    have hpos : 0 < (i :: post).length := Nat.succ_pos _
    obtain ⟨y, z', hy, hz', hsame⟩ := hreplay pre.length (by omega)
    rw [hpre] at hz hsplit
    obtain rfl : z' = z := Option.some.inj (hz'.symm.trans hz)
    have hle := along_iff.1 hnum _ i post hsplit y hy
    obtain ⟨ht, htog⟩ := hsame.together
    unfold Program.Numbers at hle
    rw [htog.read, hsame.mem]
    exact hle
  refine ⟨r, hr, fun pre ⟨post, hpost⟩ i hi => ?_⟩
  rw [← hpost] at hx hm
  rw [List.count_append] at hm
  obtain ⟨x', hx', -⟩ := run_split hx
  obtain ⟨h0, -, -⟩ | ⟨i', yi, hi', hyi, halone', hcalls⟩ := turns_alone hE ha hnum (by omega) hx'
  · omega
  obtain rfl : i' = i := by omega
  obtain ⟨yi', z, hyi', hz, hsame⟩ := hreplay i' (by omega)
  obtain rfl : yi' = yi := Option.some.inj (hyi'.symm.trans hyi)
  rw [show j = i' + (j - i') by omega, ← List.replicate_append_replicate] at hcount
  have hrel := run_rel_along (R := fun z w => DiskReplay.Finds E' x.1.disk w.1 z.1 ∧ w.2 = z.2)
    (fun _ _ _ h hn => rel_swap (Program.replay_finds hshort hdir h hn)) (t := (r, []))
    ⟨hfinds, rfl⟩ hcount.left
  rw [hz] at hrel
  obtain ⟨w, hw, hwfinds, hwcalls⟩ := exists_of_rel (rel_swap hrel)
  obtain ⟨ht, htog⟩ := hsame.together
  have hlib : x'.1.libs k = yi'.1.dirless := halone'.shows.lib
  refine ⟨x', w, hx', hw, ?_, ?_, ?_⟩
  · rw [hcalls, hwcalls, hsame.calls]
  · rw [hwfinds.lib, hlib]
    exact hsame.mem
  · rw [hwfinds.lib, hlib]
    exact htog.read

/-- The first process posts two receives and waits; the second one receives from itself. -/
def twoPrograms (i : Fin 2) : Program :=
  if i.val = 0 then twoReceives else fun m => (m, .recv .c ⟨0, 2, .byte⟩ selfComm)

theorem job_roundTrip_twoPrograms : ∃ x,
    run (turn twoPrograms twoProcesses)
      (boot twoProcesses (fun _ _ => 0) (fun _ _ => 0) .bare, fun _ => none)
      [1, 1, 0, 0, 1, 0, 0, 1, 0] = some x ∧
    JobRoundTrip twoPrograms twoProcesses (twoProcesses 0) (fun _ _ => 0) (fun _ _ => 0) .bare
      [1, 1, 0, 0, 1, 0, 0, 1, 0] 0 x := by
  obtain ⟨x, hx⟩ := Option.isSome_iff_exists.1 (show (run (turn twoPrograms twoProcesses)
    (boot twoProcesses (fun _ _ => 0) (fun _ _ => 0) .bare, fun _ => none)
      [1, 1, 0, 0, 1, 0, 0, 1, 0]).isSome = true by decide)
  have ha : OwnLog twoProcesses Disk.bare 0 :=
    ownLog_of_rank (r := 0) (fun _ => rfl) (by decide) (by decide) (by decide)
      fun e => Disk.bare_free e _
  exact ⟨x, hx, job_roundTrip (m := 4) ⟨rfl, rfl, fun _ => rfl, fun _ => rfl⟩
    ⟨rfl, rfl, fun _ => rfl⟩ (by decide) (by decide) ha _ _ (by decide) (by decide) rfl hx⟩

end MPIre

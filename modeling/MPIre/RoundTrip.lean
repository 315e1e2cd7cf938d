import MPIre.Library.Run
import MPIre.Lockstep
/-
# The record/replay round trip

A deterministic program of the captured rank decides from its memory what to
compute and which call to make next. Run under the capture library and then under
the replay library, it makes the same calls and sees the same memory after each of
them (`roundTrip`).

Two things can break it, and the run must avoid both. The element total of an
`MPI_Alltoall` or `MPI_Alltoallv` is an `int`, so a total past `INT_MAX` dumps and
loads the wrong number of elements (`roundTrip_overflow`). And the library knows a
receive by its request variable, so a variable must not be posted on, or waited on,
while a receive posted elsewhere goes by it.
-/
namespace MPIre
open Gather Run

/-- The local memory updates and the next call, chosen from the memory alone. -/
abbrev Program := Mem → Mem × Call

namespace Program

/-- One turn under the capture library, keeping the list of calls made. -/
def capture (prog : Program) (E : Env) (x : Capture × List Call) (_ : Unit) :
    Option (Capture × List Call) :=
  let (m, c) := prog x.1.app.mem
  (Capture.step E { x.1 with app := { x.1.app with mem := m } } c).map (·, x.2 ++ [c])

def replay (prog : Program) (E : Env) (x : Replay × List Call) (_ : Unit) :
    Option (Replay × List Call) :=
  let (m, c) := prog x.1.mem
  (Replay.step E { x.1 with mem := m } c).map (·, x.2 ++ [c])

theorem capture_eq (prog : Program) (E : Env) (x : Capture × List Call) (i : Unit) :
    prog.capture E x i =
      (Capture.step E { x.1 with app := { x.1.app with mem := (prog x.1.app.mem).1 } }
        (prog x.1.app.mem).2).map (·, x.2 ++ [(prog x.1.app.mem).2]) := rfl

theorem replay_eq (prog : Program) (E : Env) (x : Replay × List Call) (i : Unit) :
    prog.replay E x i =
      (Replay.step E { x.1 with mem := (prog x.1.mem).1 } (prog x.1.mem).2).map
        (·, x.2 ++ [(prog x.1.mem).2]) := rfl

/-- The next call is one both libraries hook, with packed displacements. -/
def Hooked (prog : Program) (W : World) (m : Mem) : Prop :=
  (prog m).2.captured ∧ (prog m).2.replayed ∧ (prog m).2.Packed W

/-- The next call's total fits an `int`, and its request variables are in order. -/
def Orderly (prog : Program) (W : World) (p : App) : Prop :=
  (prog p.mem).2.Fits W ∧ (prog p.mem).2.Disciplined W p

instance (prog : Program) (W : World) (m : Mem) : Decidable (prog.Hooked W m) :=
  inferInstanceAs (Decidable (_ ∧ _ ∧ _))

instance (prog : Program) (W : World) (p : App) : Decidable (prog.Orderly W p) :=
  inferInstanceAs (Decidable (_ ∧ _))

end Program

/-- The captured run of `n` calls gets through; replayed over the directory it left,
the program makes the same calls and has the same memory after each one. -/
def RoundTrip (prog : Program) (E E' : Env) (mem : Mem) (reqs : Addr → Int) (dir : Dir)
    (n : Nat) : Prop :=
  ∃ s x r, Capture.mpiInit E (Capture.boot E mem reqs dir) = some s ∧
    run (prog.capture E) (s, []) (List.replicate n ()) = some x ∧
    Replay.mpiInit E' (Replay.boot mem x.1.dir) = some r ∧
    ∀ k ≤ n, ∃ y z, run (prog.capture E) (s, []) (List.replicate k ()) = some y ∧
      run (prog.replay E') (r, []) (List.replicate k ()) = some z ∧
      z.2 = y.2 ∧ z.1.mem = y.1.app.mem ∧ z.1.cptRead = y.1.cptWrite

variable {prog : Program} {E E' : Env}

/-- The captured process between two calls of an orderly run. -/
def Program.Good (E : Env) (x : Capture × List Call) : Prop :=
  ∃ ht, x.1.Ready E ht ∧ Tracked E.hashPointer 0 x.1.app.ops ht ∧ x.1.activeDump ≠ some 0

def Program.Ok (prog : Program) (E : Env) (x : Capture × List Call) (_ : Unit) : Prop :=
  prog.Hooked E.toWorld x.1.app.mem ∧ prog.Orderly E.toWorld x.1.app

instance (x : Capture × List Call) (i : Unit) : Decidable (prog.Ok E x i) :=
  inferInstanceAs (Decidable (_ ∧ _))

theorem Program.capture_step (hE : E.Captures) (x : Capture × List Call) (i : Unit)
    (hg : Good E x) (ho : prog.Ok E x i) : ∃ x', prog.capture E x i = some x' ∧ Good E x' := by
  obtain ⟨ht, hs, hT, ha⟩ := hg
  obtain ⟨⟨hc, -, -⟩, -, hd⟩ := ho
  have hs₁ := hs.set_app { x.1.app with mem := (prog x.1.app.mem).1 }
  obtain ⟨s', hs', hr, hT', -, hact⟩ := Capture.step_orderly hs₁ hE hT hc hd
  refine ⟨(s', x.2 ++ [(prog x.1.app.mem).2]), ?_, _, hr, hT', hact ▸ ha⟩
  rw [capture_eq, hs']
  rfl

/-- Later turns leave the records of earlier ones alone. -/
theorem Program.capture_back (hE : E.Captures) {record : Nat → Option (List Byte)}
    (x : Capture × List Call) (i : Unit) (x' : Capture × List Call)
    (ho : Good E x ∧ prog.Ok E x i) (hx : prog.capture E x i = some x')
    (hl : x'.1.Left record) : x.1.Left record := by
  obtain ⟨⟨ht, hs, hT, -⟩, ⟨hc, -, -⟩, -, hd⟩ := ho
  obtain ⟨s', hs', rfl⟩ := Option.map_eq_some_iff.1 hx
  have hs₁ := hs.set_app { x.1.app with mem := (prog x.1.app.mem).1 }
  exact Capture.left_step hs₁ hE.files hc (unregistered_of_tracked hT hd) hs' hl

/-- The two runs after the same number of turns. -/
structure Program.Same (E E' : Env) (record : Nat → Option (List Byte))
    (x : Capture × List Call) (y : Replay × List Call) : Prop where
  calls : y.2 = x.2
  mem : y.1.mem = x.1.app.mem
  record : y.1.dir.record = record
  together : ∃ ht, Together E E' 0 x.1 ht y.1

/-- One turn of both runs. -/
theorem Program.turn (hE : E.Captures) (hE' : E'.Replays E) {record : Nat → Option (List Byte)}
    (x : Capture × List Call) (y : Replay × List Call) (i : Unit) (x' : Capture × List Call)
    (hsame : Same E E' record x y) (ho : Good E x ∧ prog.Ok E x i)
    (hx : prog.capture E x i = some x') (hl : x'.1.Left record) :
    ∃ y', prog.replay E' y i = some y' ∧ Same E E' record x' y' := by
  obtain ⟨hcalls, hmem, hrec, ht, htog⟩ := hsame
  obtain ⟨-, ⟨hc, hc', hp⟩, hf, hd⟩ := ho
  obtain ⟨s', hs', rfl⟩ := Option.map_eq_some_iff.1 hx
  -- the program's own computation, on both sides
  have htog₁ : Together E E' 0
      { x.1 with app := { x.1.app with mem := (prog x.1.app.mem).1 } } ht
      { y.1 with mem := (prog x.1.app.mem).1 } :=
    ⟨htog.capture.set_app _, ⟨htog.replay.rank, htog.replay.size, htog.replay.sound⟩,
      htog.active, htog.read, htog.begun, htog.tracked, htog.tracked'⟩
  obtain ⟨r', hr', htog', hdir, hmem'⟩ :=
    lockstep_tracked hE hE'.files htog₁ hc hc' ⟨hd, hp, hf⟩ (since_zero _) hs'
      (by rw [← hrec] at hl; exact hl)
  obtain ⟨s₁, hs₁, -, -, happ, -⟩ := Capture.step_orderly htog₁.capture hE htog₁.tracked hc hd
  obtain rfl : s₁ = s' := Option.some.inj (hs₁.symm.trans hs')
  refine ⟨(r', y.2 ++ [(prog x.1.app.mem).2]), ?_, ?_, ?_, ?_, _, htog'⟩
  · rw [replay_eq, hmem, hr']
    rfl
  · show y.2 ++ _ = x.2 ++ _
    rw [hcalls]
  · show r'.mem = s₁.app.mem
    rw [hmem', happ]
    exact overlay_eq fun a ha => effect_mem ha
  · show r'.dir.record = record
    rw [hdir]
    exact hrec

/-- The replay of a captured run, after every number of turns. -/
theorem Program.replays (hE : E.Captures) (hE' : E'.Replays E) (ha : E.mpireActiveDump ≠ some 0)
    {mem : Mem} {reqs : Addr → Int} {dir : Dir} {n : Nat}
    (hok : Along (prog.capture E) (prog.Ok E) (Capture.start E mem reqs dir, [])
      (List.replicate n ())) :
    ∃ x, run (prog.capture E) (Capture.start E mem reqs dir, []) (List.replicate n ()) = some x ∧
      x.1.dir.nprocs = some (E.size worldComm) ∧
      ∀ k ≤ n, ∃ y z,
        run (prog.capture E) (Capture.start E mem reqs dir, []) (List.replicate k ()) = some y ∧
        run (prog.replay E') (Replay.start E' E mem x.1.dir, []) (List.replicate k ()) = some z ∧
        Same E E' x.1.dir.record y z := by
  have hact : (Capture.start E mem reqs dir).activeDump ≠ some 0 := by
    show some (E.mpireActiveDump.getD 1) ≠ some 0
    cases h : E.mpireActiveDump with
    | none => simp
    | some v =>
      rw [h] at ha
      exact ha
  have hg : Good E (Capture.start E mem reqs dir, []) :=
    ⟨[], Capture.start_ready mem reqs dir, Capture.start_tracked 0 mem reqs dir _, hact⟩
  have hok' := hok.and_inv (fun x i x' hg ho hx => by
    obtain ⟨x₁, hx₁, hg₁⟩ := capture_step hE x i hg ho
    rw [hx] at hx₁
    cases hx₁
    exact hg₁) hg
  obtain ⟨x, hx, ⟨_, hsx, -⟩⟩ := run_inv (capture_step hE) hg hok
  refine ⟨x, hx, hsx.nprocs, fun k hk => ?_⟩
  rw [← Nat.add_sub_cancel' hk, ← List.replicate_append_replicate] at hx hok'
  obtain ⟨y, hy, hyx⟩ := run_split hx
  -- the log at the end is all there is to read, and nothing in it has changed since `k`
  have hleft : y.1.Left x.1.dir.record :=
    run_back (F := fun z => z.1.Left x.1.dir.record) (capture_back hE)
      (hok'.append hy) hyx fun _ _ => rfl
  have hsame : Same E E' x.1.dir.record (Capture.start E mem reqs dir, [])
      (Replay.start E' E mem x.1.dir, []) :=
    ⟨rfl, rfl, rfl, [], Capture.start_ready mem reqs dir, Replay.start_ready mem _, hact, rfl,
      Nat.zero_le _, Capture.start_tracked 0 mem reqs dir _, Capture.start_tracked 0 mem reqs dir _⟩
  obtain ⟨z, hz, hyz⟩ := run_sim (F := fun z => z.1.Left x.1.dir.record)
    (capture_back hE) (turn hE hE') hsame hok'.left hy hleft
  exact ⟨y, z, hy, hz, hyz⟩

/-- **Record/replay.** A run of hooked, orderly calls is replayed call by call. -/
theorem roundTrip (hE : E.Captures) (hE' : E'.Replays E) (ha : E.mpireActiveDump ≠ some 0)
    (mem : Mem) (reqs : Addr → Int) (dir : Dir) (n : Nat)
    (hok : Along (prog.capture E) (prog.Ok E) (Capture.start E mem reqs dir, [])
      (List.replicate n ())) :
    RoundTrip prog E E' mem reqs dir n := by
  obtain ⟨x, hx, hn, hreplay⟩ := Program.replays hE hE' ha hok
  refine ⟨_, x, _, Capture.mpiInit_boot hE mem reqs dir, hx, Replay.mpiInit_boot hE hE' mem hn,
    fun k hk => ?_⟩
  obtain ⟨y, z, hy, hz, hsame⟩ := hreplay k hk
  obtain ⟨ht, htog⟩ := hsame.together
  exact ⟨y, z, hy, hz, hsame.calls, hsame.mem, htog.read⟩

/-- Byte 0 counts the turns. A receive and a send are posted and waited for together, then a
receive posted from C is waited for by itself; what came in first decides the last call. -/
def exchange : Program := fun m =>
  (Function.update m 0 (m 0 + 1),
    if m 0 = 0 then .irecv .fortran ⟨8, 2, .byte⟩ worldComm 100
    else if m 0 = 1 then .isend .fortran 104
    else if m 0 = 2 then .waitall .fortran 2 100
    else if m 0 = 3 then .irecv .c ⟨12, 1, .byte⟩ worldComm 112
    else if m 0 = 4 then .send .c
    else if m 0 = 5 then .wait .c 112
    else if m 8 = 0 then .recv .c ⟨16, 1, .byte⟩ worldComm
    else .bcast .fortran ⟨16, 2, .byte⟩ 1 worldComm)

theorem roundTrip_exchange :
    RoundTrip exchange fourProcesses fourProcesses (fun _ => 0) (fun _ => 0)
      ⟨none, fun _ => none⟩ 7 :=
  roundTrip fourProcesses_captures fourProcesses_replays (by decide) _ _ _ 7 (by decide)

/-- `MPI_Alltoall` of 2^30 bytes from each process. -/
def wideAlltoall : Program := fun m => (m, .alltoall .c ⟨0, 1073741824, .byte⟩ worldComm)

/-- Four times 2^30 is 0 as an `int`: the record is empty and the replay loads nothing. -/
theorem roundTrip_overflow :
    (∀ m, wideAlltoall.Hooked fourProcesses.toWorld m) ∧
      ¬ RoundTrip wideAlltoall fourProcesses fourProcesses (fun _ => 0) (fun _ => 0)
        ⟨none, fun _ => none⟩ 1 := by
  refine ⟨fun m => ⟨rfl, rfl, trivial⟩, ?_⟩
  rintro ⟨s, x, r, hs, hx, hr, hk⟩
  obtain ⟨y, z, hy, hz, -, hmem, -⟩ := hk 1 (Nat.le_refl 1)
  obtain rfl : x = y := Option.some.inj (hx.symm.trans hy)
  rw [Capture.mpiInit_boot fourProcesses_captures] at hs
  cases hs
  -- the captured call fills its buffer with what arrives
  have hready : (Capture.start fourProcesses (fun _ => 0) (fun _ => 0) ⟨none, fun _ => none⟩).Ready
      fourProcesses [] := Capture.start_ready _ _ _
  have hstep := Capture.step_eq hready fourProcesses_captures.files
    (c := .alltoall .c ⟨0, 1073741824, .byte⟩ worldComm) rfl trivial
  rw [List.replicate_one, run_single, Program.capture_eq] at hx
  rw [List.replicate_one, run_single, Program.replay_eq] at hz
  obtain ⟨s', hs', rfl⟩ := Option.map_eq_some_iff.1 hx
  have he := Option.some.inj (hstep.symm.trans hs')
  have hn : s'.dir.nprocs = some (fourProcesses.size worldComm) := by
    rw [← he]
    exact hready.nprocs
  have hfill : (effect fourProcesses.toWorld
      { (Capture.start fourProcesses (fun _ => 0) (fun _ => 0) ⟨none, fun _ => none⟩).app with
        mem := fun _ => 0 } (.alltoall .c ⟨0, 1073741824, .byte⟩ worldComm)).mem 0 = 1 :=
    alltoall_fills (b := ⟨0, 1073741824, .byte⟩) rfl (by decide) (by decide)
  -- the replayed one leaves it as it was
  have hi := Replay.mpiInit_boot fourProcesses_captures fourProcesses_replays (fun _ => 0) hn
  obtain rfl := Option.some.inj (hi.symm.trans hr)
  obtain ⟨r', hr', rfl⟩ := Option.map_eq_some_iff.1 hz
  have hzero : r'.mem = fun _ => 0 := by
    refine Replay.alltoall_mem ?_ hr'
    show cInt (1073741824 * 4) ≤ 0
    decide
  have hone : r'.mem 0 = 1 := by
    rw [hmem, ← he]
    exact hfill
  rw [hzero] at hone
  exact absurd hone (by decide)

end MPIre

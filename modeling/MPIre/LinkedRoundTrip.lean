import MPIre.LinkedCapture
import MPIre.LinkedReplay
import MPIre.RoundTrip
/-
# Record and replay over the vendored hash table

The two libraries as they are linked, each with its own `malloc`. A run of a program under the
linked capture library is replayed by the linked replay library call by call
(`linked_roundTrip`), for every hash function. Over the library without the table this is
`Program.replays`; the two tables are exchanged for bags on either side of it.
-/
namespace MPIre
open Run

namespace Linked

/-- The libraries right after `MPI_Init`. -/
def LinkedCapture.start (E : Env) (mem : Mem) (reqs : Addr → Int) (dir : Dir) : LinkedCapture where
  lib := .start E mem reqs dir
  requests := ⟨.init, fun _ => ⟨0, .byte, 0, 0⟩, 0⟩
  rehashes := true

def LinkedReplay.start (E' E : Env) (mem : Mem) (dir : Dir) : LinkedReplay where
  lib := .start E' E mem dir
  requests := ⟨.init, fun _ => ⟨0, .byte, 0, 0⟩, 0⟩

variable {A A' : Allocator} {E E' : Env}

theorem LinkedCapture.init_boot (hE : E.Captures) (mem : Mem) (reqs : Addr → Int) (dir : Dir)
    (l : Lang) : LinkedCapture.step A E (.boot E mem reqs dir) (.init l) =
      some (.start E mem reqs dir) := by
  show ((Capture.mpiInit E (.boot E mem reqs dir)).bind _) = _
  rw [Capture.mpiInit_boot hE mem reqs dir, Option.bind_some, if_pos hE.rank]
  rfl

theorem LinkedReplay.init_boot (hE : E.Captures) (hE' : E'.Replays E) (mem : Mem) {dir : Dir}
    (hd : dir.nprocs = some (E.size worldComm)) (l : Lang) :
    Linked.hook A' E' (Linked.boot mem dir) (.call (.init l)) =
      some (.start E' E mem dir) := by
  show ((Replay.mpiInit E' (.boot mem dir)).bind _) = _
  rw [Replay.mpiInit_boot hE hE' mem hd]
  rfl

end Linked

open Linked

namespace Program

/-- One turn under the linked capture library, keeping the list of calls made. -/
def linkedCapture (prog : Program) (A : Allocator) (E : Env) (x : LinkedCapture × List Call)
    (_ : Unit) : Option (LinkedCapture × List Call) :=
  let (m, c) := prog x.1.lib.app.mem
  (LinkedCapture.step A E (x.1.setApp { x.1.lib.app with mem := m }) c).map (·, x.2 ++ [c])

def linkedReplay (prog : Program) (A : Allocator) (E : Env) (x : LinkedReplay × List Call)
    (_ : Unit) : Option (LinkedReplay × List Call) :=
  let (m, c) := prog x.1.lib.mem
  (Linked.hook A E { x.1 with lib := { x.1.lib with mem := m } } (.call c)).map (·, x.2 ++ [c])

/-- The next call is hooked and orderly, and there is memory for it. -/
def LinkedOk (prog : Program) (A : Allocator) (E : Env) (x : LinkedCapture × List Call)
    (i : Unit) : Prop :=
  prog.Ok E (x.1.lib, x.2) i ∧
    LinkedCapture.HasRoom A E (x.1.setApp { x.1.lib.app with mem := (prog x.1.lib.app.mem).1 })
      (prog x.1.lib.app.mem).2

def ReplayRoom (prog : Program) (A : Allocator) (x : LinkedReplay × List Call) (_ : Unit) : Prop :=
  Linked.HasRoom A { x.1 with lib := { x.1.lib with mem := (prog x.1.lib.mem).1 } }
    (.call (prog x.1.lib.mem).2)

instance (prog : Program) (A : Allocator) (E : Env) (x : LinkedCapture × List Call) (i : Unit) :
    Decidable (prog.LinkedOk A E x i) :=
  inferInstanceAs (Decidable (_ ∧ _))

instance (prog : Program) (A : Allocator) (x : LinkedReplay × List Call) (i : Unit) :
    Decidable (prog.ReplayRoom A x i) :=
  inferInstanceAs (Decidable (Linked.HasRoom A _ _))

end Program

/-- The captured run of `n` calls gets through; replayed over the directory it left,
the program makes the same calls and has the same memory after each one. -/
def LinkedRoundTrip (prog : Program) (A A' : Allocator) (E E' : Env) (mem : Mem)
    (reqs : Addr → Int) (dir : Dir) (n : Nat) : Prop :=
  ∃ s x r, LinkedCapture.step A E (.boot E mem reqs dir) (.init .c) = some s ∧
    run (prog.linkedCapture A E) (s, []) (List.replicate n ()) = some x ∧
    Linked.hook A' E' (Linked.boot mem x.1.lib.dir) (.call (.init .c)) = some r ∧
    ∀ k ≤ n, ∃ y z, run (prog.linkedCapture A E) (s, []) (List.replicate k ()) = some y ∧
      run (prog.linkedReplay A' E') (r, []) (List.replicate k ()) = some z ∧
      z.2 = y.2 ∧ z.1.lib.mem = y.1.lib.app.mem ∧ z.1.lib.cptRead = y.1.lib.cptWrite

variable {prog : Program} {A A' : Allocator} {E E' : Env}

/-- The same turns under either capture library; the linked one has its hash function. -/
structure Program.Matched (A : Allocator) (E : Env) (x : LinkedCapture × List Call)
    (y : Capture × List Call) : Prop where
  links : LinkedCapture.Links A E x.1 y.1
  rehashes : x.1.rehashes = true
  calls : x.2 = y.2

theorem Program.start_matched (mem : Mem) (reqs : Addr → Int) (dir : Dir) :
    Matched A E (.start E mem reqs dir, []) (.start E mem reqs dir, []) :=
  ⟨⟨rfl, 0, stands_init _ _⟩, rfl, rfl⟩

/-- One turn. -/
theorem Program.capture_matched (hA : A.Rises) {x : LinkedCapture × List Call}
    {y : Capture × List Call} (i : Unit) (h : Matched A E x y) (ho : prog.LinkedOk A E x i) :
    Option.Rel (Matched A E) (prog.linkedCapture A E x i) (prog.capture E y i) := by
  obtain ⟨hlinks, hre, hcalls⟩ := h
  have happ : x.1.lib.app = y.1.app := by rw [hlinks.lib]; rfl
  have hroom := ho.2
  rw [happ] at hroom
  show Option.Rel _ ((LinkedCapture.step A E (x.1.setApp
      { x.1.lib.app with mem := (prog x.1.lib.app.mem).1 }) (prog x.1.lib.app.mem).2).map _) _
  rw [capture_eq, happ, hcalls]
  have hre' : (x.1.setApp { y.1.app with mem := (prog y.1.app.mem).1 }).rehashes = true := hre
  have hstep := (hlinks.set_app _).step hA hroom (LinkedCapture.canHash hre')
  refine rel_map (rel_and hstep fun _ hs => LinkedCapture.step_rehashes hre' hs) fun _ _ h => ?_
  exact ⟨h.1, h.2, rfl⟩

theorem Program.replay_links (hA : A.Rises) {x : LinkedReplay × List Call}
    {y : Replay × List Call} (i : Unit) (h : Linked.Links A E x.1 y.1 ∧ x.2 = y.2)
    (ho : prog.ReplayRoom A x i) :
    Option.Rel (fun x y => Linked.Links A E x.1 y.1 ∧ x.2 = y.2)
      (prog.linkedReplay A E x i) (prog.replay E y i) := by
  obtain ⟨hlinks, hcalls⟩ := h
  have hmem : x.1.lib.mem = y.1.mem := by rw [hlinks.lib]; rfl
  have hroom : Linked.HasRoom A { x.1 with lib := { x.1.lib with mem := (prog x.1.lib.mem).1 } }
      (.call (prog x.1.lib.mem).2) := ho
  rw [hmem] at hroom
  show Option.Rel _ ((Linked.hook A E { x.1 with lib := { x.1.lib with mem :=
      (prog x.1.lib.mem).1 } } (.call (prog x.1.lib.mem).2)).map _) _
  rw [replay_eq, hmem, hcalls]
  have hset : Linked.Links A E { x.1 with lib := { x.1.lib with mem := (prog y.1.mem).1 } }
      { y.1 with mem := (prog y.1.mem).1 } := by
    obtain ⟨⟨lib, t⟩, calls⟩ := x
    obtain ⟨rfl, ht⟩ := hlinks
    exact ⟨rfl, ht⟩
  exact rel_map (hset.hook hA hroom) fun _ _ h => ⟨h, rfl⟩

/-- The linked capture library after `k` of `n` good turns. -/
theorem Program.linkedCapture_run (hA : A.Rises) {x : LinkedCapture × List Call}
    {y z : Capture × List Call} {n k : Nat} (hk : k ≤ n) (h : Matched A E x y)
    (hok : Along (prog.linkedCapture A E) (prog.LinkedOk A E) x (List.replicate n ()))
    (hz : run (prog.capture E) y (List.replicate k ()) = some z) :
    ∃ x', run (prog.linkedCapture A E) x (List.replicate k ()) = some x' ∧ Matched A E x' z := by
  rw [← Nat.add_sub_cancel' hk, ← List.replicate_append_replicate] at hok
  have hrel := run_rel_along (fun _ _ i h ho => capture_matched hA i h ho) h hok.left
  rw [hz] at hrel
  exact exists_of_rel hrel

theorem Program.linkedReplay_run (hA : A.Rises) {x : LinkedReplay × List Call}
    {y z : Replay × List Call} {n k : Nat} (hk : k ≤ n)
    (h : Linked.Links A E x.1 y.1 ∧ x.2 = y.2)
    (hok : Along (prog.linkedReplay A E) (prog.ReplayRoom A) x (List.replicate n ()))
    (hz : run (prog.replay E) y (List.replicate k ()) = some z) :
    ∃ x', run (prog.linkedReplay A E) x (List.replicate k ()) = some x' ∧
      Linked.Links A E x'.1 z.1 ∧ x'.2 = z.2 := by
  rw [← Nat.add_sub_cancel' hk, ← List.replicate_append_replicate] at hok
  have hrel := run_rel_along (fun _ _ i h ho => replay_links hA i h ho) h hok.left
  rw [hz] at hrel
  exact exists_of_rel hrel

/-- What is asked of the run over the table is met by the run over the bag. -/
theorem Program.ok_of_linked (hA : A.Rises) {x : LinkedCapture × List Call}
    {y : Capture × List Call} {is : List Unit} (h : Matched A E x y)
    (hok : Along (prog.linkedCapture A E) (prog.LinkedOk A E) x is) :
    Along (prog.capture E) (prog.Ok E) y is := by
  refine hok.rel (fun _ _ i h ho => capture_matched hA i h ho) (fun x y i h ho => ?_) h
  have happ : x.1.lib.app = y.1.app := by rw [h.links.lib]; rfl
  have hgood : prog.Hooked E.toWorld x.1.lib.app.mem ∧ prog.Orderly E.toWorld x.1.lib.app := ho.1
  rw [happ] at hgood
  exact hgood

/-- **Record/replay, tables and all.** -/
theorem linked_roundTrip (hA : A.Rises) (hA' : A'.Rises) (hE : E.Captures) (hE' : E'.Replays E)
    (ha : E.mpireActiveDump ≠ some 0) (mem : Mem) (reqs : Addr → Int) (dir : Dir) (n : Nat)
    (hok : Along (prog.linkedCapture A E) (prog.LinkedOk A E) (.start E mem reqs dir, [])
      (List.replicate n ()))
    (hroom : ∀ x ∈ run (prog.linkedCapture A E) (.start E mem reqs dir, []) (List.replicate n ()),
      Along (prog.linkedReplay A' E') (prog.ReplayRoom A') (.start E' E mem x.1.lib.dir, [])
        (List.replicate n ())) :
    LinkedRoundTrip prog A A' E E' mem reqs dir n := by
  have hstart := Program.start_matched (A := A) (E := E) mem reqs dir
  obtain ⟨x, hx, hn, hreplay⟩ :=
    Program.replays hE hE' ha (Program.ok_of_linked hA hstart hok)
  obtain ⟨x', hx', hxlinks, -, -⟩ :=
    Program.linkedCapture_run hA (Nat.le_refl n) hstart hok hx
  have hdir : x'.1.lib.dir = x.1.dir := by rw [hxlinks.lib]; rfl
  have hroom := hroom x' hx'
  rw [hdir] at hroom
  have hrstart : Linked.Links A' E' (.start E' E mem x.1.dir) (.start E' E mem x.1.dir) :=
    ⟨rfl, 0, stands_init _ _⟩
  refine ⟨_, x', .start E' E mem x.1.dir, LinkedCapture.init_boot hE mem reqs dir .c, hx', ?_,
    fun k hk => ?_⟩
  · rw [hdir]
    exact LinkedReplay.init_boot hE hE' mem hn .c
  obtain ⟨y, z, hy, hz, hsame⟩ := hreplay k hk
  obtain ⟨y', hy', hylinks, -, hycalls⟩ := Program.linkedCapture_run hA hk hstart hok hy
  obtain ⟨z', hz', hzlinks, hzcalls⟩ := Program.linkedReplay_run hA' hk ⟨hrstart, rfl⟩ hroom hz
  obtain ⟨ht, htog⟩ := hsame.together
  refine ⟨y', z', hy', hz', ?_, ?_, ?_⟩
  · rw [hzcalls, hycalls, hsame.calls]
  · rw [hzlinks.lib, hylinks.lib]
    exact hsame.mem
  · rw [hzlinks.lib, hylinks.lib]
    exact htog.read

/-- Two receives are posted, the second one is waited for first. -/
def twoReceives : Program := fun m =>
  (Function.update m 0 (m 0 + 1),
    if m 0 = 0 then .irecv .c ⟨8, 1, .byte⟩ worldComm 100
    else if m 0 = 1 then .irecv .c ⟨9, 1, .byte⟩ worldComm 108
    else if m 0 = 2 then .wait .c 108
    else .wait .c 100)

theorem linked_roundTrip_twoReceives :
    LinkedRoundTrip twoReceives .small .small fourProcesses fourProcesses (fun _ => 0)
      (fun _ => 0) ⟨none, fun _ => none⟩ 4 :=
  linked_roundTrip Allocator.small_rises Allocator.small_rises fourProcesses_captures
    fourProcesses_replays (by decide) _ _ _ 4 (by decide) (by decide)

end MPIre

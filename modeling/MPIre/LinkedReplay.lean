import MPIre.Ccan.Requests
import MPIre.ReplayRun
/-
# The replay library with its hash table linked in

The replay library of the other modules keeps its receives in a bag. Here each hook works on
the vendored hash table instead, and what the hooks do otherwise is theirs
(`Replay.perform`). `run_linked` says that no run tells the two apart: the same memory, return
codes, records read and exits, for every hash function.

It takes memory for a larger table whenever one is needed. `irecv_registered` is what happens
without: `add_request` does not look at what `htable_add` returns, so `MPI_Irecv` succeeds and
the receive is not known to any wait.
-/
namespace MPIre
open Run

/-- The library without its table. -/
def Replay.bare (r : Replay) : Replay := { r with requestHtab := [] }

namespace Linked

structure LinkedReplay where
  /-- Its own table stays empty. -/
  lib : Replay
  requests : Requests

def boot (mem : Mem) (dir : Dir) : LinkedReplay where
  lib := .boot mem dir
  requests := ⟨.init, fun _ => ⟨0, .byte, 0, 0⟩, 0⟩

variable (A : Allocator) (E : Env)

def perform (s : LinkedReplay) : Replay.Action → Option LinkedReplay
  | .init => do
    let lib ← Replay.mpiInit E s.lib
    pure ⟨lib, if s.lib.initialized then s.requests else s.requests.cleared⟩
  | .finalize => do
    let lib ← Replay.mpiFinalize E s.lib
    pure ⟨lib, s.requests.cleared⟩
  | .post b a => do
    let t ← addRequest A E.hashPointer s.requests b a
    let lib ← s.lib.success
    pure ⟨lib, t⟩
  | .drain as => do
    let (lib, t) ← settleAll E.hashPointer (Replay.readInFile E) as (s.lib, s.requests)
    let lib ← lib.success
    pure ⟨lib, t⟩
  | act => do
    let lib ← Replay.perform E s.lib act
    pure ⟨lib, s.requests⟩

def hook (s : LinkedReplay) (h : Replay.Hook) : Option LinkedReplay :=
  perform A E s (h.action E s.lib.mpireRank s.lib.mpireSize)

/-- A receive is only posted when there is memory for it. -/
def HasRoom (s : LinkedReplay) : Replay.Hook → Prop
  | .call (.irecv ..) => s.requests.mallocs < A.blocks ∧ s.requests.CanGrow A
  | _ => True

instance (s : LinkedReplay) : ∀ h, Decidable (HasRoom A s h)
  | .call (.irecv ..) => inferInstanceAs (Decidable (_ ∧ _))
  | .call (.init _) | .call (.finalize _) | .call (.send _) | .call (.isend ..)
  | .call (.barrier _) | .call (.recv ..) | .call (.wait ..) | .call (.waitall ..)
  | .call (.bcast ..) | .call (.alltoall ..) | .call (.alltoallv ..) | .call (.allreduce ..)
  | .call (.reduce ..) | .finalized _ | .abort _ | .commRank _ | .commSize _ | .start _
  | .reduceNoUnderscore .. => isTrue trivial

/-- The table stands for that of the other library, and nothing else differs. -/
structure Links (s : LinkedReplay) (r : Replay) : Prop where
  lib : s.lib = r.bare
  table : ∃ ps, Stands A E.hashPointer ps s.requests r.requestHtab

variable {A E} {s : LinkedReplay} {r : Replay}

theorem readInFile_rel {l r : Replay} (h : l = r.bare) (b : Buf) :
    Option.Rel (fun l r => l = r.bare) (Replay.readInFile E l b) (Replay.readInFile E r b) := by
  subst h
  have hcode : r.bare.openCode (E.access r.bare.hist.length) =
      r.openCode (E.access r.hist.length) := rfl
  unfold Replay.readInFile
  dsimp only
  rw [hcode]
  by_cases hopen : r.openCode (E.access r.hist.length) ≠ mpiSuccess
  · rw [if_pos hopen, if_pos hopen]
    exact .none
  · rw [if_neg hopen, if_neg hopen]
    exact .some rfl

theorem Links.init (h : Links A E s r) :
    Option.Rel (Links A E) (perform A E s .init) (Replay.perform E r .init) := by
  obtain ⟨hlib, ps, hs⟩ := h
  obtain ⟨lib, t⟩ := s
  subst hlib
  show Option.Rel _ ((Replay.mpiInit E r.bare).bind _) (Replay.mpiInit E r)
  unfold Replay.mpiInit
  cases hi : r.initialized with
  | true =>
    rw [if_pos rfl, if_pos (show r.bare.initialized = true from hi)]
    refine .some ⟨rfl, ps, ?_⟩
    show Stands A _ ps (if r.initialized then t else t.cleared) _
    rw [hi]
    exact hs
  | false =>
    rw [if_neg Bool.false_ne_true, if_neg (by rw [show r.bare.initialized = false from hi]; simp)]
    unfold Replay.initMPIre
    cases E.mpireRank with
    | none => exact .none
    | some rank =>
      have hdir : r.bare.dir = r.dir := rfl
      dsimp only
      rw [hdir]
      cases if E.nprocsOpens = true then r.dir.nprocs else none with
      | none => exact .none
      | some n =>
        refine .some ⟨rfl, 0, ?_⟩
        show Stands A _ 0 (if r.initialized then t else t.cleared) []
        rw [hi]
        exact stands_init t.heap t.mallocs

theorem Links.perform (hA : A.Rises) (h : Links A E s r) {act : Replay.Action}
    (hroom : ∀ b a, act = .post b a → s.requests.mallocs < A.blocks ∧ s.requests.CanGrow A) :
    Option.Rel (Links A E) (perform A E s act) (Replay.perform E r act) := by
  cases act with
  | init => exact h.init
  | finalize =>
    obtain ⟨hlib, -⟩ := h
    refine .some ⟨?_, 0, stands_init _ _⟩
    rw [hlib]
    rfl
  | answer out =>
    obtain ⟨hlib, hs⟩ := h
    refine .some ⟨?_, hs⟩
    rw [hlib]
    rfl
  | fallThrough b =>
    obtain ⟨hlib, hs⟩ := h
    refine .some ⟨?_, hs⟩
    rw [hlib]
    rfl
  | fault => exact .none
  | receive load b =>
    obtain ⟨hlib, hs⟩ := h
    cases load with
    | false =>
      refine .some ⟨?_, hs⟩
      rw [hlib]
      rfl
    | true =>
      show Option.Rel _ (((Replay.readInFile E s.lib b).bind _).bind _)
        ((Replay.readInFile E r b).bind _)
      have hrel := readInFile_rel (E := E) hlib b
      cases hread : Replay.readInFile E r b with
      | none =>
        cases hl : Replay.readInFile E s.lib b with
        | none => exact .none
        | some l =>
          rw [hl, hread] at hrel
          cases hrel
      | some r' =>
        cases hl : Replay.readInFile E s.lib b with
        | none =>
          rw [hl, hread] at hrel
          cases hrel
        | some l =>
          rw [hl, hread] at hrel
          cases hrel with
          | some hl =>
            have ht := Replay.readInFile_table hread
            exact .some ⟨congrArg (fun l : Replay => { l with ret := mpiSuccess }) hl, ht ▸ hs⟩
  | post b a =>
    obtain ⟨hlib, ps, hs⟩ := h
    obtain ⟨hblock, hgrow⟩ := hroom b a rfl
    show Option.Rel _ ((addRequest A E.hashPointer s.requests b a).bind _)
      ((MPIre.addRequest E.hashPointer r.requestHtab b a).bind _)
    refine rel_bind (hs.addRequest_rel hA hblock hgrow b a) fun t ht hst => .some ⟨?_, hst⟩
    rw [hlib]
    rfl
  | drain as =>
    obtain ⟨hlib, hs⟩ := h
    have hloop := settleAll_rel (A := A) (R := fun l r => l = r.bare)
      (fun _ _ b h => readInFile_rel (E := E) h b) (x := (s.lib, s.requests))
      (y := (r, r.requestHtab)) ⟨hlib, hs⟩ as
    refine rel_bind hloop fun x y hxy => ?_
    obtain ⟨hl, hs'⟩ := hxy
    refine .some ⟨?_, hs'⟩
    rw [hl]
    rfl

/-- Only `MPI_Irecv` and `mpi_irecv_` add to the table. -/
theorem action_post {c : Replay.Hook} {rank size : Int} {b : Buf} {a : Addr}
    (h : c.action E rank size = .post b a) : ∃ l comm, c = .call (.irecv l b comm a) := by
  cases c with
  | call c =>
    cases c with
    | irecv l b' comm a' =>
      cases h
      exact ⟨l, comm, rfl⟩
    | alltoallv l recvbuf rc rd t comm =>
      cases l with
      | c => cases h
      | fortran =>
        replace h : Replay.alltoallvAction E size recvbuf rc rd t = .post b a := h
        unfold Replay.alltoallvAction at h
        split at h <;> cases h
    | reduce l => cases l <;> cases h
    | _ => cases h
  | _ => cases h

theorem Links.hook (hA : A.Rises) (h : Links A E s r) {c : Replay.Hook} (hroom : HasRoom A s c) :
    Option.Rel (Links A E) (hook A E s c) (Replay.hook E r c) := by
  rw [Replay.hook_eq]
  have hrank : s.lib.mpireRank = r.mpireRank := by rw [h.lib]; rfl
  have hsize : s.lib.mpireSize = r.mpireSize := by rw [h.lib]; rfl
  unfold Linked.hook
  rw [hrank, hsize]
  refine h.perform hA fun b a ha => ?_
  obtain ⟨l, comm, rfl⟩ := action_post ha
  exact hroom

theorem links_boot (mem : Mem) (dir : Dir) : Links A E (boot mem dir) (.boot mem dir) :=
  ⟨rfl, 0, stands_init _ _⟩

/-- The run lemma. -/
theorem run_links (hA : A.Rises) {mem : Mem} {dir : Dir} {hs : List Replay.Hook}
    (hmem : Along (hook A E) (HasRoom A) (boot mem dir) hs) :
    Option.Rel (Links A E) (run (hook A E) (boot mem dir) hs)
      (run (Replay.hook E) (.boot mem dir) hs) :=
  run_rel_along (fun _ _ _ h hroom => h.hook hA hroom) (links_boot mem dir) hmem

/-- **The linked library is the library.** From `MPI_Init` on, while there is memory for the
table, it does in every run what the library over the bag does, and exits with it. -/
theorem run_linked (hA : A.Rises) (mem : Mem) (dir : Dir) (l : Lang) {hs : List Replay.Hook}
    (hmem : Along (hook A E) (HasRoom A) (boot mem dir) (.call (.init l) :: hs)) :
    (run (hook A E) (boot mem dir) (.call (.init l) :: hs)).map LinkedReplay.lib =
      (run (Replay.hook E) (.boot mem dir) (.call (.init l) :: hs)).map Replay.bare := by
  have hrel := run_links hA hmem
  revert hrel
  generalize run (hook A E) _ _ = x
  generalize run (Replay.hook E) _ _ = y
  rintro (h | _)
  · exact congrArg some h.lib
  · rfl

/-- All requests have one hash, and the second one is waited for first. -/
theorem run_linked_waits :
    (run (hook .small (.plain (fun _ => 0) (fun _ => 1) 0))
      (boot (fun _ => 0) ⟨some 1, fun _ => some [7]⟩)
      [.call (.init .c), .call (.irecv .c ⟨8, 1, .byte⟩ 0 100),
        .call (.irecv .c ⟨9, 1, .byte⟩ 0 108), .call (.wait .c 108),
        .call (.wait .c 100)]).map LinkedReplay.lib =
    (run (Replay.hook (.plain (fun _ => 0) (fun _ => 1) 0))
      (.boot (fun _ => 0) ⟨some 1, fun _ => some [7]⟩)
      [.call (.init .c), .call (.irecv .c ⟨8, 1, .byte⟩ 0 100),
        .call (.irecv .c ⟨9, 1, .byte⟩ 0 108), .call (.wait .c 108),
        .call (.wait .c 100)]).map Replay.bare :=
  run_linked Allocator.small_rises _ _ .c (by decide)

/-- **A receive that is lost.** In every state a run reaches, an `MPI_Irecv` of a variable that
is not registered succeeds if `malloc` does, and it is registered just if the table had room or
could grow. -/
theorem irecv_registered (hA : A.Rises) (mem : Mem) (dir : Dir) (l : Lang)
    (hs : List Replay.Hook) {s : LinkedReplay}
    (hmem : Along (hook A E) (HasRoom A) (boot mem dir) (.call (.init l) :: hs))
    (hr : run (hook A E) (boot mem dir) (.call (.init l) :: hs) = some s) {a : Addr}
    (hno : getRequest E.hashPointer s.requests a = some none)
    (hblock : s.requests.mallocs < A.blocks) (l' : Lang) (b : Buf) (comm : Comm) :
    ∃ s', hook A E s (.call (.irecv l' b comm a)) = some s' ∧ s'.lib.ret = mpiSuccess ∧
      ((∃ p, getRequest E.hashPointer s'.requests a = some (some p)) ↔ s.requests.CanGrow A) := by
  have hrel := run_links hA hmem
  rw [hr] at hrel
  obtain ⟨r, -, -, ps, hst⟩ : ∃ r, run (Replay.hook E) (.boot mem dir) (.call (.init l) :: hs) =
      some r ∧ Links A E s r := by
    cases hr₂ : run (Replay.hook E) (.boot mem dir) (.call (.init l) :: hs) with
    | none =>
      rw [hr₂] at hrel
      cases hrel
    | some r =>
      rw [hr₂] at hrel
      cases hrel with
      | some h => exact ⟨r, rfl, h⟩
  have hhook : ∀ {t : Requests}, addRequest A E.hashPointer s.requests b a = some t →
      hook A E s (.call (.irecv l' b comm a)) =
        some ⟨{ s.lib with ret := mpiSuccess }, t⟩ := fun {t} hadd => by
    show (addRequest A E.hashPointer s.requests b a).bind _ = _
    rw [hadd]
    rfl
  by_cases hgrow : s.requests.CanGrow A
  · obtain ⟨q, hq, hmap, -⟩ := hst.get a
    rw [hno] at hq
    cases hq
    obtain ⟨t', hadd, hst'⟩ := hst.add hA hblock hgrow (b := b) hmap.symm
    refine ⟨_, hhook hadd, rfl, iff_of_true ?_ hgrow⟩
    obtain ⟨q, hq, hmap, -⟩ := hst'.get a
    have hview : (r.requestHtab.posted E.hashPointer b a).view E.hashPointer a = _ :=
      view_posted r.requestHtab b a a
    rw [if_pos rfl] at hview
    cases q with
    | none =>
      rw [view_eq_none_iff.2 hmap.symm] at hview
      cases hview
    | some p => exact ⟨p, hq⟩
  · obtain ⟨hadd, hget⟩ := hst.add_full hblock hgrow b hno
    refine ⟨_, hhook hadd, rfl, iff_of_false (fun ⟨p, hp⟩ => ?_) hgrow⟩
    rw [show getRequest E.hashPointer (newEntry A s.requests (b.toRequest a)) a = some (some p)
      from hp] at hget
    cases hget

theorem irecv_registered_lost : ∃ s s',
    run (hook .exhausted (.plain (fun _ => 0) (fun _ => 1) 0))
      (boot (fun _ => 0) ⟨some 1, fun _ => none⟩) [.call (.init .c)] = some s ∧
    hook .exhausted (.plain (fun _ => 0) (fun _ => 1) 0) s
      (.call (.irecv .c ⟨8, 1, .byte⟩ 0 100)) = some s' ∧
    s'.lib.ret = mpiSuccess ∧ ¬ ∃ p, getRequest (fun _ => 0) s'.requests 100 = some (some p) := by
  obtain ⟨s', hs', hret, hiff⟩ := irecv_registered (A := .exhausted)
    (E := .plain (fun _ => 0) (fun _ => 1) 0) Allocator.small_rises (fun _ => 0)
    ⟨some 1, fun _ => none⟩ .c [] (by decide) rfl (a := 100) rfl (Nat.succ_pos 3) .c ⟨8, 1, .byte⟩ 0
  exact ⟨_, s', rfl, hs', hret, fun h => absurd (hiff.1 h) (by decide)⟩

end Linked

end MPIre

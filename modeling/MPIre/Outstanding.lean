import MPIre.Lockstep
import MPIre.ReplayRun
/-
# The replay table is the map of outstanding receives

`outstanding hs` is what a sequence of calls leaves posted and not waited for, by the
calls alone: no hash and no table. `table_outstanding` says that after any run of the
replay library its table is this map, for every `hash_pointer`, and that the six hooks
that post or wait read it as this map (`Stands`).

* one entry for each outstanding address, with the receive posted there, and no other;
* `add_request` exits exactly on an address that is outstanding;
* a wait reads the records of what is outstanding on its addresses, in their order and
  once each, and takes these entries out; it ends the process only where `read_in_file`
  does, so the exit of `del_request` is out of reach.
-/
namespace MPIre
open Gather Run

/-- What a call does to the outstanding receives; `MPI_Finalize` drops them. -/
def Replay.Hook.outstandingAfter (out : Addr → Option Buf) : Replay.Hook → Addr → Option Buf
  | .call (.finalize _) => fun _ => none
  | .call c => viewAfter out c
  | _ => out

def outstanding (hs : List Replay.Hook) : Addr → Option Buf :=
  hs.foldl Replay.Hook.outstandingAfter fun _ => none

namespace Replay

/-- `s` on its return from a wait on the addresses `as`. -/
def waited (as : List Addr) (s : Replay) : Replay :=
  { s with requestHtab := s.requestHtab.filter (fun x => x.2.request ∉ as), ret := mpiSuccess }

/-- The table of `s` stands for `out`, and the hooks use it so. -/
structure Stands (E : Env) (s : Replay) (out : Addr → Option Buf) : Prop where
  entries : ∀ a, s.requestHtab.filter (fun x => x.2.request = a) =
    (out a).toList.map fun b => (E.hashPointer a, b.toRequest a)
  post : ∀ l b comm a, step E s (.irecv l b comm a) = none ↔ out a ≠ none
  wait : ∀ l a, step E s (.wait l a) =
    ((out a).toList.foldlM (readInFile E) s).map (waited [a])
  waitall : ∀ l count array, step E s (.waitall l count array) =
    (((slots l array count).filterMap out).foldlM (readInFile E) s).map
      (waited (slots l array count))
  /-- The loop of a wait over addresses that may repeat. -/
  loop : ∀ as, drain s (settleAll E.hashPointer (readInFile E) as) =
    ((taken out as).foldlM (readInFile E) s).map (waited as)
  delete : ∀ a e, getRequest E.hashPointer s.requestHtab a = some e →
    delRequest s.requestHtab (E.hashPointer a) e ≠ none

variable {E : Env} {s s' : Replay}

/-! ## A sound table -/

theorem reads_table (bs : List Buf) (h : bs.foldlM (readInFile E) s = some s') :
    s'.requestHtab = s.requestHtab := by
  induction bs generalizing s with
  | nil =>
    cases h
    rfl
  | cons b bs ih =>
    obtain ⟨m, hm, h⟩ := Option.bind_eq_some_iff.1 h
    exact (ih h).trans (readInFile_table hm)

theorem drain_taken (hs : s.requestHtab.Sound E.hashPointer) (as : List Addr) :
    drain s (settleAll E.hashPointer (readInFile E) as) =
      ((taken (s.requestHtab.view E.hashPointer) as).foldlM (readInFile E) s).map
        (waited as) := by
  unfold drain
  rw [settleAll_taken _ as s hs, settledAll_eq_filter hs]
  cases h : (taken (s.requestHtab.view E.hashPointer) as).foldlM (readInFile E) s with
  | none => rfl
  | some m =>
    have ht := reads_table _ h
    simp [success, waited, ht]

/-- A sound table stands for what it knows. -/
theorem stands_view (hs : s.requestHtab.Sound E.hashPointer) :
    Stands E s (s.requestHtab.view E.hashPointer) where
  entries a := by
    have h := HashBag.entries_eq hs a
    have hl : HashBag.lookup E.hashPointer Request.request s.requestHtab a =
        getRequest E.hashPointer s.requestHtab a := rfl
    rw [h, hl]
    unfold Htable.view
    cases he : getRequest E.hashPointer s.requestHtab a with
    | none => rfl
    | some e =>
      obtain ⟨-, rfl⟩ := (HashBag.lookup_eq_some_iff hs).1 he
      rfl
  post l b comm a := by
    constructor
    · intro h hv
      have hpost := irecv_eq (E := E) (b := b) hv
      have h : mpiIrecv E s b a = none := by cases l <;> exact h
      rw [hpost] at h
      cases h
    · intro hv
      exact step_exit hv
  wait l a := by
    have h := drain_taken hs [a]
    have ht : taken (s.requestHtab.view E.hashPointer) [a] =
        (s.requestHtab.view E.hashPointer a).toList := List.append_nil _
    rw [ht, funext (settleAll_single (readInFile E) a)] at h
    cases l <;> exact h
  waitall l count array := by
    have h := drain_taken hs (slots l array count)
    rw [taken_nodup _ _ (nodup_slots l array count)] at h
    cases l <;> exact h
  loop := drain_taken hs
  delete a e he := by
    have hd := (settled_spec hs a).2.2 e he
    rw [hd]
    exact Option.some_ne_none _

/-! ## Every run -/

/-- What an action does to what the table knows. -/
def Action.viewAfter (view : Addr → Option Buf) : Action → Addr → Option Buf
  | .finalize => fun _ => none
  | .post b a => fun x => if x = a then some b else view x
  | .drain as => fun x => if x ∈ as then none else view x
  | _ => view

theorem Hook.viewAfter_action (view : Addr → Option Buf) (rank size : Int) (h : Hook) :
    (h.action E rank size).viewAfter view = h.outstandingAfter view := by
  cases h with
  | call c =>
    cases c with
    | wait l a =>
      funext x
      simp [Hook.action, Action.viewAfter, Hook.outstandingAfter, MPIre.viewAfter]
    | alltoallv l recvbuf rc rd t comm =>
      cases l with
      | c => rfl
      | fortran =>
        show (alltoallvAction E size recvbuf rc rd t).viewAfter view = view
        unfold alltoallvAction
        split <;> rfl
    | reduce l b root comm => cases l <;> rfl
    | _ => rfl
  | _ => rfl

/-- The step lemma: an action of an initialised library does this to its table. -/
theorem perform_view {act : Action} (hi : s.initialized = true)
    (hs : s.requestHtab.Sound E.hashPointer) (h : perform E s act = some s') :
    s'.requestHtab.view E.hashPointer = act.viewAfter (s.requestHtab.view E.hashPointer) := by
  cases act with
  | init =>
    rcases mpiInit_some h with ⟨-, rfl⟩ | ⟨hno, -⟩
    · rfl
    · rw [hi] at hno
      cases hno
  | finalize =>
    cases h
    rfl
  | receive load b =>
    cases load with
    | false =>
      cases h
      rfl
    | true =>
      obtain ⟨m, hm, h⟩ := Option.bind_eq_some_iff.1 h
      cases h
      have ht := readInFile_table hm
      exact congrArg (fun ht : Htable => ht.view E.hashPointer) ht
  | drain as =>
    have h : drain s (settleAll E.hashPointer (readInFile E) as) = some s' := h
    rw [drain_taken hs] at h
    obtain ⟨m, hm, rfl⟩ := Option.map_eq_some_iff.1 h
    have ht := reads_table _ hm
    funext x
    show Htable.view E.hashPointer (m.requestHtab.filter _) x = if x ∈ as then none else _
    rw [ht, ← settledAll_eq_filter hs, view_settledAll hs]
  | post b a =>
    obtain ⟨ht, hadd, h⟩ := Option.bind_eq_some_iff.1 h
    cases h
    obtain ⟨-, rfl⟩ := addRequest_some hadd
    exact funext fun x => view_posted _ b a x
  | answer out | fallThrough b =>
    cases h
    rfl
  | fault => cases h

/-- The run lemma: what the table knows is what the calls left outstanding. -/
theorem run_outstanding {r : Replay} (hi : r.initialized = true)
    (hs : r.requestHtab.Sound E.hashPointer) {hks : List Hook}
    (hrun : run (hook E) r hks = some s) :
    s.requestHtab.view E.hashPointer =
      hks.foldl Hook.outstandingAfter (r.requestHtab.view E.hashPointer) := by
  induction hks generalizing r with
  | nil =>
    cases hrun
    rfl
  | cons h hks ih =>
    obtain ⟨m, hm, hrun⟩ := Option.bind_eq_some_iff.1 hrun
    have hr : SiteOf r r := ⟨rfl, rfl, rfl, rfl, hi⟩
    have hsite := hook_site hr hm
    have hview := hm
    rw [hook_eq] at hview
    have hview := perform_view hi hs hview
    rw [Hook.viewAfter_action] at hview
    rw [ih hsite.initialized (hook_sound hs hm) hrun, hview]
    rfl

end Replay

variable {E : Env} {mem : Mem} {dir : Dir} {hs : List Replay.Hook} {r : Replay}

/-- **The request table.** Wherever a run of the replay library arrives, its table stands
for the receives that the calls of the run left outstanding. -/
theorem table_outstanding (hr : Replay.exec E mem dir hs = some r) :
    r.Stands E (outstanding hs) := by
  obtain ⟨r₀, h₀, hrun⟩ := Option.bind_eq_some_iff.1 hr
  rcases Replay.mpiInit_some h₀ with ⟨hi, -⟩ | ⟨-, rank, size, -, -, rfl⟩
  · cases hi
  · have hview := Replay.run_outstanding rfl Htable.sound_nil hrun
    obtain ⟨-, hsound⟩ := Replay.run_site ⟨rfl, rfl, rfl, rfl, rfl⟩ Htable.sound_nil hrun
    have hstands := Replay.stands_view hsound
    rw [hview] at hstands
    exact hstands

/-- Two receives of one hash, waited for in one array with a send between them, and one of
them posted again. -/
theorem table_collision :
    let hs : List Replay.Hook := [.call (.irecv .c ⟨0, 1, .byte⟩ worldComm 100),
      .call (.isend .c 108), .call (.irecv .fortran ⟨5, 2, .byte⟩ worldComm 116),
      .call (.waitall .c 3 100), .call (.irecv .c ⟨3, 1, .byte⟩ worldComm 116)]
    Replay.Stands fourProcesses ((Replay.exec fourProcesses (fun _ => 0)
      ⟨some 4, fun _ => some [7, 8]⟩ hs).get (by decide)) (outstanding hs) :=
  table_outstanding (Option.some_get (by decide)).symm

end MPIre

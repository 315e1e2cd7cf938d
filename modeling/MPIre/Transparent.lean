import MPIre.CaptureRun
import MPIre.FortranStatuses
/-
# The captured application

The capture library sits between the application and MPI and hands every call on. Whatever the
process, the communicators, the error codes and the flag are, an application that the library
does not end has seen the same data, handles, statuses and return codes as without it
(`run_transparent`).

The exceptions are the bindings that do not hand everything on: a Fortran wait does not store
the completed handle, `mpi_waitall_` mixes up the statuses of two requests or more, and
`mpi_alltoallv_` passes other arrays. Arguments are real ones: the wrappers do not know the
Fortran constants `MPI_STATUS_IGNORE`, `MPI_IN_PLACE` and `MPI_BOTTOM`, and take them for arrays.

| here | there |
| --- | --- |
| `plain`            | the call without the library: a Fortran wait stores the completed handle |
| `Call.converted`   | how many statuses the wrapper takes apart and puts together again |
| `Call.HandedOn`    | the wrapper changes nothing on the way |
-/
namespace MPIre
open Gather Run

/-- The application after a call when no library is loaded. -/
def plain (W : World) (p : App) : Call → App
  | .wait .fortran a =>
    let r := pmpiWait W p (W.requestF2c (p.reqs a))
    r.1.setReq a (W.requestC2f r.2)
  | .waitall .fortran count array =>
    let as := slots .fortran array count
    let r := pmpiWaitall W p (as.map fun a => W.requestF2c (p.reqs a))
    r.1.setReqs W .fortran as r.2
  | c => effect W p c

def App.event (W : World) (p : App) : Event → App
  | .call c => plain W p c
  | .compute f => { p with mem := f p.mem }
  | .setenv _ => p
  | .copy dst src => p.setReq dst (p.reqs src)

/-- A C status is handed on where it is. -/
def Call.converted : Call → Nat
  | .recv .fortran .. | .wait .fortran _ => 1
  | .waitall .fortran count _ => count
  | _ => 0

/-- Whatever its status argument holds, the call leaves there what MPI's own binding does. -/
def Call.KeepsStatuses (c : Call) : Prop :=
  ∀ {σ : Type} {S : Nat} (T : Statuses σ S) (a : Int → Int),
    T.afterWaitall_ c.converted a = T.afterPlain c.converted a

/-- A Fortran request variable that no wait would change. -/
def App.Inactive (W : World) (p : App) (a : Addr) : Prop :=
  W.requestC2f W.requestNull = p.reqs a ∧ W.requestC2f (W.requestF2c (p.reqs a)) = p.reqs a

/-- The binding hands everything on: a Fortran wait has nothing new to store, and it has at
most one status. -/
def Call.HandedOn (W : World) (p : App) : Call → Prop
  | .wait .fortran a => p.Inactive W a
  | .waitall .fortran count array =>
    count ≤ 1 ∧ ∀ a ∈ slots .fortran array count, p.Inactive W a
  | .alltoallv l .. => l = .c
  | _ => True

def Event.HandedOn (W : World) (p : App) : Event → Prop
  | .call c => c.HandedOn W p
  | _ => True

instance (W : World) (p : App) (a : Addr) : Decidable (p.Inactive W a) :=
  inferInstanceAs (Decidable (W.requestC2f W.requestNull = p.reqs a ∧
    W.requestC2f (W.requestF2c (p.reqs a)) = p.reqs a))

instance (W : World) (p : App) : ∀ c : Call, Decidable (c.HandedOn W p)
  | .wait .fortran a => inferInstanceAs (Decidable (p.Inactive W a))
  | .waitall .fortran count array => inferInstanceAs (Decidable
    (count ≤ 1 ∧ ∀ a ∈ slots .fortran array count, p.Inactive W a))
  | .alltoallv l .. => inferInstanceAs (Decidable (l = .c))
  | .wait .c _ | .waitall .c .. | .init _ | .finalize _ | .send _ | .isend .. | .barrier _
  | .recv .. | .irecv .. | .bcast .. | .alltoall .. | .allreduce .. | .reduce .. => isTrue trivial

instance (W : World) (p : App) : ∀ ev : Event, Decidable (ev.HandedOn W p)
  | .call c => inferInstanceAs (Decidable (c.HandedOn W p))
  | .compute _ | .setenv _ | .copy .. => isTrue trivial

variable {W : World} {p : App} {c : Call}

/-- A Fortran wait that stores what its variable holds. -/
theorem plain_wait {a : Addr}
    (hnull : W.code p.now = mpiSuccess → W.requestC2f W.requestNull = p.reqs a)
    (hsame : W.requestC2f (W.requestF2c (p.reqs a)) = p.reqs a) :
    plain W p (.wait .fortran a) = effect W p (.wait .fortran a) := by
  refine setReq_self ?_
  rw [reqs_wait]
  unfold pmpiWait
  split
  · exact hnull ‹_›
  · exact hsame

theorem plain_waitall {count : Nat} {array : Addr}
    (hnull : W.code p.now = mpiSuccess →
      ∀ a ∈ slots .fortran array count, W.requestC2f W.requestNull = p.reqs a)
    (hsame : ∀ a ∈ slots .fortran array count, W.requestC2f (W.requestF2c (p.reqs a)) = p.reqs a) :
    plain W p (.waitall .fortran count array) = effect W p (.waitall .fortran count array) := by
  refine setReqs_self ?_
  rw [reqs_waitall]
  unfold pmpiWaitall gather
  split
  · rw [List.map_map, List.map_map]
    exact List.map_congr_left (hnull ‹_›)
  · rw [List.map_map]
    exact List.map_congr_left hsame

theorem plain_of_handedOn (h : c.HandedOn W p) : plain W p c = effect W p c := by
  cases c with
  | wait l a =>
    cases l with
    | c => rfl
    | fortran => exact plain_wait (fun _ => h.1) h.2
  | waitall l count array =>
    cases l with
    | c => rfl
    | fortran => exact plain_waitall (fun _ a ha => (h.2 a ha).1) fun a ha => (h.2 a ha).2
  | _ => rfl

/-- One status is where it should be. -/
theorem keepsStatuses_of_handedOn (h : c.HandedOn W p) : c.KeepsStatuses := by
  have hone : c.converted ≤ 1 := by
    cases c with
    | recv l | wait l => cases l <;> simp [Call.converted]
    | waitall l count array =>
      cases l with
      | c => exact Nat.zero_le 1
      | fortran => exact h.1
    | _ => exact Nat.zero_le 1
  intro σ S T a
  exact T.afterWaitall_plain hone a

namespace Capture

variable {E : Env} {s s' : Capture}

/-- What an action leaves of the application, apart from the library. -/
def Action.after (W : World) (p : App) : Action → App
  | .init | .finalize => p.tick W
  | .answer app | .drain app _ _ => app
  | .receive ps _ _ => pmpiReceive W p ps
  | .post l b _ a => pmpiPostVar W p l a (some b)
  | .fault => p

theorem writeInFile_app {b : Buf} (h : writeInFile E s b = some s') : s'.app = s.app := by
  rcases writeInFile_some h with ⟨-, rfl⟩ | ⟨-, -, rfl⟩
  · rfl
  · rfl

theorem initMPIre_app (h : initMPIre E s = some s') : s'.app = s.app := by
  obtain ⟨r, -, ⟨-, -, rfl⟩ | ⟨-, rfl⟩⟩ := initMPIre_some h
  · rfl
  · rfl

/-- The library changes nothing of the application on its own. -/
theorem perform_app {act : Action} (h : perform E s act = some s') :
    s'.app = act.after E.toWorld s.app := by
  cases act with
  | init => exact initMPIre_app h
  | finalize | answer app =>
    cases h
    rfl
  | receive ps dump b =>
    have h : receive E s ps dump b = some s' := h
    unfold receive at h
    cases dump with
    | false =>
      cases h
      rfl
    | true => exact writeInFile_app (s := { s with app := pmpiReceive E.toWorld s.app ps }) h
  | post l b comm a =>
    have h : irecv l E s b comm a = some s' := h
    unfold irecv at h
    split at h
    · obtain ⟨m, hm, h⟩ := Option.bind_eq_some_iff.1 h
      obtain ⟨ht, -, hm⟩ := Option.bind_eq_some_iff.1 hm
      obtain ⟨ht', -, hm⟩ := Option.bind_eq_some_iff.1 hm
      cases hm
      cases h
      rfl
    · cases h
      rfl
  | drain app key as =>
    unfold perform drain at h
    dsimp only at h
    split at h
    · obtain ⟨ht, -, h⟩ := Option.bind_eq_some_iff.1 h
      obtain ⟨x, hx, h⟩ := Option.bind_eq_some_iff.1 h
      cases h
      have hkeep := settles_keeps (P := fun s : Capture => s.app = app)
        (fun _ _ _ hs hw => (writeInFile_app hw).trans hs) as (x := ({ s with app := app }, ht))
        rfl hx
      exact hkeep
    · cases h
      rfl
  | fault => cases h

/-- The action of a call does to the application what the call does. -/
theorem after_callAction {rank : Int} (hc : ∀ recvbuf rc rd t comm,
    c ≠ .alltoallv .fortran recvbuf rc rd t comm) :
    (callAction E s.app rank c).after E.toWorld s.app = effect E.toWorld s.app c := by
  cases c with
  | alltoallv l recvbuf rc rd t comm =>
    cases l with
    | c => rfl
    | fortran => exact absurd rfl (hc recvbuf rc rd t comm)
  | waitall l count array => cases l <;> rfl
  | _ => rfl

/-- The step lemma: any call but one, in any state of the library. -/
theorem step_app (hc : ∀ recvbuf rc rd t comm, c ≠ .alltoallv .fortran recvbuf rc rd t comm)
    (h : step E s c = some s') : s'.app = effect E.toWorld s.app c := by
  rw [step_perform] at h
  exact (perform_app h).trans (after_callAction hc)

theorem step_handedOn (hc : c.HandedOn E.toWorld s.app) (h : step E s c = some s') :
    s'.app = plain E.toWorld s.app c := by
  rw [plain_of_handedOn hc]
  refine step_app ?_ h
  rintro recvbuf rc rd t comm rfl
  cases hc

theorem event_app {ev : Event} (hc : ev.HandedOn E.toWorld s.app) (h : event E s ev = some s') :
    s'.app = s.app.event E.toWorld ev := by
  cases ev with
  | call c => exact step_handedOn hc h
  | compute f | setenv v | copy dst src =>
    cases h
    rfl

/-- **The library is transparent.** Wherever a run arrives, the application is where it would be
without the library, and has got the statuses it would have got. -/
theorem run_transparent {evs : List Event}
    (hc : Along (event E) (fun s ev => ev.HandedOn E.toWorld s.app) s evs)
    (h : run (event E) s evs = some s') :
    s'.app = evs.foldl (App.event E.toWorld) s.app ∧
      ∀ c, .call c ∈ evs → c.KeepsStatuses := by
  induction evs generalizing s with
  | nil =>
    cases h
    exact ⟨rfl, fun c hc => absurd hc List.not_mem_nil⟩
  | cons ev evs ih =>
    obtain ⟨m, hm, h⟩ := Option.bind_eq_some_iff.1 h
    obtain ⟨happ, hstatuses⟩ := ih (hc.2 m hm) h
    rw [List.foldl_cons, ← event_app hc.1 hm]
    refine ⟨happ, fun c hmem => ?_⟩
    rcases List.mem_cons.1 hmem with rfl | hmem
    · exact keepsStatuses_of_handedOn hc.1
    · exact hstatuses c hmem

/-- The captured process, which dumps part of what it receives, moves a request, and asks for
one status. -/
theorem run_transparent_moved :
    let evs : List Event := [.call (.init .c), .call (.irecv .c ⟨8, 1, .byte⟩ worldComm 100),
      .copy 108 100, .setenv 0, .call (.recv .fortran ⟨9, 1, .byte⟩ worldComm),
      .call (.wait .c 108), .call (.wait .fortran 108), .call (.waitall .fortran 1 108)]
    ((run (event fourProcesses) (boot fourProcesses (fun _ => 0) (fun _ => 0)
      ⟨none, fun _ => none⟩) evs).get (by decide)).app =
      evs.foldl (App.event fourProcesses.toWorld)
        (boot fourProcesses (fun _ => 0) (fun _ => 0) ⟨none, fun _ => none⟩).app ∧
      ∀ c, .call c ∈ evs → c.KeepsStatuses :=
  run_transparent (by decide) (Option.some_get (by decide)).symm

end Capture

end MPIre

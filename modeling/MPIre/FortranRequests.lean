import MPIre.Chronicle
import MPIre.Transparent
/-
# The request variables of Fortran

`mpi_irecv_` stores the handle of its receive with `MPI_Request_c2f` (capture:201).
`mpi_wait_` and `mpi_waitall_` complete copies of the handles (capture:255, 318) and do
not store them back, so a variable that plain MPI sets to the Fortran
`MPI_REQUEST_NULL` keeps the handle of an operation that is over. The variables are as
plain MPI leaves them, in every state of a run, exactly if no wait of the run has a
handle to change (`handlesKept_iff`).
-/
namespace MPIre
open Gather Run

/-- The Fortran calls on requests. -/
def Call.onRequest : Call → Bool
  | .irecv .fortran _ _ _ | .isend .fortran _ | .wait .fortran _ | .waitall .fortran _ _ => true
  | _ => false

/-- A wait that succeeds finds its variables null. -/
def Call.KeepsHandles (W : World) (p : App) : Call → Prop
  | .wait .fortran a => W.code p.now = mpiSuccess → p.reqs a = W.requestC2f W.requestNull
  | .waitall .fortran count array => W.code p.now = mpiSuccess →
    ∀ a ∈ slots .fortran array count, p.reqs a = W.requestC2f W.requestNull
  | _ => True

instance (W : World) (p : App) : ∀ c : Call, Decidable (c.KeepsHandles W p)
  | .wait .fortran a => inferInstanceAs (Decidable
    (W.code p.now = mpiSuccess → p.reqs a = W.requestC2f W.requestNull))
  | .waitall .fortran count array => inferInstanceAs (Decidable (W.code p.now = mpiSuccess →
    ∀ a ∈ slots .fortran array count, p.reqs a = W.requestC2f W.requestNull))
  | .wait .c _ | .waitall .c .. | .init _ | .finalize _ | .send _ | .isend .. | .barrier _
  | .recv .. | .irecv .. | .bcast .. | .alltoall .. | .alltoallv .. | .allreduce .. | .reduce .. =>
    isTrue trivial

/-- The application after `MPI_Init`. -/
def App.start (W : World) (mem : Mem) (reqs : Addr → Int) : App := ⟨mem, reqs, ∅, 1, W.code 0⟩

/-- Without the library: a machine that never stops. -/
def plainStep (W : World) (p : App) (c : Call) : Option App := some (plain W p c)

/-- Wherever the run of the capture library arrives, every request variable holds what it
holds there without the library. -/
def HandlesKept (E : Env) (mem : Mem) (reqs : Addr → Int) (dir : Dir) (cs : List Call) : Prop :=
  ∀ pre, pre <+: cs → ∀ s ∈ Capture.exec E mem reqs dir (pre.map .call),
    ∀ p ∈ run (plainStep E.toWorld) (App.start E.toWorld mem reqs) pre, s.app.reqs = p.reqs

namespace Capture

variable {E : Env} {s s' : Capture}

/-- On any rank, what a call on requests does to the application is its `effect`. -/
theorem step_onRequest {c : Call} (hc : c.onRequest) (h : step E s c = some s') :
    s'.app = effect E.toWorld s.app c := by
  refine step_app ?_ h
  rintro recvbuf rc rd t comm rfl
  cases hc

end Capture

variable {W : World} {p : App}

/-! ## One call -/

/-- With the library or without, if the call keeps its handles. -/
theorem plain_eq_effect_of_keeps (hf : ∀ x, W.requestC2f (W.requestF2c x) = x) {c : Call}
    (hc : c.onRequest) (hk : c.KeepsHandles W p) : plain W p c = effect W p c := by
  cases c with
  | wait l a =>
    cases l with
    | c => cases hc
    | fortran => exact plain_wait (fun hcode => (hk hcode).symm) (hf _)
  | waitall l count array =>
    cases l with
    | c => cases hc
    | fortran => exact plain_waitall (fun hcode a ha => (hk hcode a ha).symm) fun a _ => hf _
  | _ => rfl

/-- A wait that has a handle to change leaves it, and plain MPI does not. -/
theorem keeps_of_reqs {c : Call} (hc : c.onRequest)
    (h : (effect W p c).reqs = (plain W p c).reqs) : c.KeepsHandles W p := by
  cases c with
  | wait l a =>
    cases l with
    | c => trivial
    | fortran =>
      intro hcode
      have ha := congrFun h a
      have hold : (effect W p (.wait .fortran a)).reqs a = p.reqs a := congrFun (reqs_wait ..) a
      have hnew : (plain W p (.wait .fortran a)).reqs a = W.requestC2f W.requestNull := by
        simp [plain, App.setReq, pmpiWait, hcode]
      rw [← hold, ha, hnew]
  | waitall l count array =>
    cases l with
    | c => trivial
    | fortran =>
      intro hcode a ha
      have hold : (effect W p (.waitall .fortran count array)).reqs a = p.reqs a :=
        congrFun (reqs_waitall ..) a
      have hnew : (plain W p (.waitall .fortran count array)).reqs a =
          W.requestC2f W.requestNull := by
        let hs := (slots .fortran array count).map fun a => W.requestF2c (p.reqs a)
        have hm := scatter_mem (slots .fortran array count)
          ((hs.map fun _ => W.requestNull).map (W.encode .fortran))
          (m := (pmpiWaitall W p hs).1.reqs) (by simp [hs]) ha
        obtain ⟨h₀, hh₀, hval⟩ := List.mem_map.1 hm
        obtain ⟨-, -, rfl⟩ := List.mem_map.1 hh₀
        have hret : (pmpiWaitall W p hs).2 = hs.map fun _ => W.requestNull := by
          simp [pmpiWaitall, hcode]
        show scatter _ _ ((pmpiWaitall W p hs).2.map (W.encode .fortran)) a = _
        rw [hret, ← hval]
        rfl
      rw [← hold, congrFun h a, hnew]
  | _ => trivial

/-! ## Whole runs -/

variable {E : Env} {mem : Mem} {reqs : Addr → Int} {dir : Dir} {cs : List Call}

/-- `MPI_Init` on any rank. -/
theorem Capture.mpiInit_app {s : Capture} (h : mpiInit E (boot E mem reqs dir) = some s) :
    s.app = App.start E.toWorld mem reqs := by
  obtain ⟨r, -, h⟩ := initMPIre_some h
  rcases h with ⟨-, -, rfl⟩ | ⟨-, rfl⟩
  · rfl
  · rfl

/-- While handles are kept, the application does not notice the library. -/
theorem run_kept (hf : ∀ x, E.requestC2f (E.requestF2c x) = x) {s s' : Capture} {p : App}
    (hs : s.app = p) (hc : ∀ c ∈ cs, c.onRequest)
    (hk : Along (plainStep E.toWorld) (fun p c => c.KeepsHandles E.toWorld p) p cs)
    (hrun : run (Capture.event E) s (cs.map .call) = some s') :
    run (plainStep E.toWorld) p cs = some s'.app := by
  induction cs generalizing s p with
  | nil =>
    cases hrun
    exact congrArg some hs.symm
  | cons c cs ih =>
    obtain ⟨m, hm, hrun⟩ := Option.bind_eq_some_iff.1 hrun
    have happ := Capture.step_onRequest (hc c (by simp)) hm
    subst hs
    rw [← plain_eq_effect_of_keeps hf (hc c (by simp)) hk.1] at happ
    exact ih happ (fun c hc' => hc c (by simp [hc'])) (hk.2 _ rfl) hrun

/-- A run that returns with the variables of plain MPI at every point keeps its handles. -/
theorem along_keeps (hf : ∀ x, E.requestC2f (E.requestF2c x) = x) {s : Capture} {p : App}
    (hs : s.app = p) (hc : ∀ c ∈ cs, c.onRequest)
    (hrun : run (Capture.event E) s (cs.map .call) ≠ none)
    (hsame : ∀ pre, pre <+: cs → ∀ s' ∈ run (Capture.event E) s (pre.map .call),
      ∀ p' ∈ run (plainStep E.toWorld) p pre, s'.app.reqs = p'.reqs) :
    Along (plainStep E.toWorld) (fun p c => c.KeepsHandles E.toWorld p) p cs := by
  induction cs generalizing s p with
  | nil => trivial
  | cons c cs ih =>
    obtain ⟨s', hrun⟩ := Option.ne_none_iff_exists'.1 hrun
    obtain ⟨m, hm, hrun⟩ := Option.bind_eq_some_iff.1 hrun
    have hrun : run (Capture.event E) m (cs.map .call) = some s' := hrun
    have hc₀ := hc c (by simp)
    have happ := Capture.step_onRequest hc₀ hm
    subst hs
    have hreqs : (effect E.toWorld s.app c).reqs = (plain E.toWorld s.app c).reqs := by
      rw [← happ]
      exact hsame [c] ⟨cs, rfl⟩ m (by simp [hm]) _ (by simp [plainStep])
    have hk := keeps_of_reqs hc₀ hreqs
    rw [← plain_eq_effect_of_keeps hf hc₀ hk] at happ
    refine ⟨hk, fun p' hp' => ?_⟩
    cases hp'
    refine ih happ (fun c hc' => hc c (by simp [hc'])) (by simp [hrun])
      fun pre hpre s₁ hs₁ p₁ hp₁ => ?_
    refine hsame (c :: pre) (List.cons_prefix_cons.2 ⟨rfl, hpre⟩) s₁ ?_ p₁ ?_
    · simpa [hm] using hs₁
    · simpa [plainStep] using hp₁

/-- **Request variables.** Along a run that returns, on any rank, they are as plain MPI
leaves them if and only if no wait has a handle to change. -/
theorem handlesKept_iff (hf : ∀ x, E.requestC2f (E.requestF2c x) = x)
    (hc : ∀ c ∈ cs, c.onRequest) (hrun : Capture.exec E mem reqs dir (cs.map .call) ≠ none) :
    HandlesKept E mem reqs dir cs ↔
      Along (plainStep E.toWorld) (fun p c => c.KeepsHandles E.toWorld p)
        (App.start E.toWorld mem reqs) cs := by
  obtain ⟨s, hs⟩ := Option.ne_none_iff_exists'.1 hrun
  obtain ⟨s₀, h₀, hs⟩ := Option.bind_eq_some_iff.1 hs
  have happ := Capture.mpiInit_app h₀
  have hexec : ∀ evs, Capture.exec E mem reqs dir evs = run (Capture.event E) s₀ evs := by
    intro evs
    unfold Capture.exec
    rw [h₀]
    rfl
  unfold HandlesKept
  simp only [hexec]
  constructor
  · exact along_keeps hf happ hc (by simp [hs])
  · rintro hk pre ⟨post, rfl⟩ s₁ hs₁ p hp
    have hplain := run_kept hf happ (fun c hc' => hc c (by simp [hc'])) hk.left hs₁
    have hp : run (plainStep E.toWorld) (App.start E.toWorld mem reqs) pre = some p := hp
    rw [hplain] at hp
    rw [Option.some.inj hp]

/-- Posts, and waits on variables that are null. -/
theorem handlesKept_posts :
    HandlesKept fourProcesses (fun _ => 0) (fun _ => 0) ⟨none, fun _ => none⟩
      [.irecv .fortran ⟨0, 1, .byte⟩ worldComm 100, .isend .fortran 104, .wait .fortran 108,
        .waitall .fortran 2 108] :=
  (handlesKept_iff (fun _ => rfl) (by decide) (by decide)).2 (by decide)

/-- The variable of a receive keeps its handle after the wait. -/
theorem handlesKept_wait :
    ¬ HandlesKept fourProcesses (fun _ => 0) (fun _ => 0) ⟨none, fun _ => none⟩
      [.irecv .fortran ⟨0, 1, .byte⟩ worldComm 100, .wait .fortran 100] := by
  intro h
  have hreqs := congrFun (h _ (List.prefix_refl _) _ (Option.mem_def.2 rfl) _
    (Option.mem_def.2 rfl)) 100
  revert hreqs
  decide

end MPIre

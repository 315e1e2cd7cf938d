import MPIre.Chronicle
/-
# Calls that fail

With the error handler set to return, a `PMPI_` call may hand back an error code. The
hooks of the capture library pass the code on and never look at it: a receive that
failed is dumped, a wait that failed deletes its entry, and `MPI_Irecv` registers
before the post (capture:169-461). So a failed call leaves no trace (`Traceless`)
exactly if a call that succeeds would leave none either (`traceless_iff`), and a post
that failed cannot be made again (`traced_irecv`).
-/
namespace MPIre
open Gather Run

/-- The calls that bring data in. -/
def Call.isInbound : Call → Bool
  | .recv .. | .irecv .. | .wait .. | .waitall .. | .bcast .. | .alltoall .. | .alltoallv ..
  | .allreduce .. | .reduce .. => true
  | .init _ | .finalize _ | .send _ | .isend .. | .barrier _ => false

/-- The hook makes its `PMPI_` call, and that returns an error code. -/
def Call.Fails (E : Env) (p : App) (c : Call) : Prop :=
  E.code p.now ≠ mpiSuccess ∧ ∀ recvbuf rc rd t comm,
    c = .alltoallv .fortran recvbuf rc rd t comm → (E.deref rc).isSome ∧ (E.deref rd).isSome

/-- The hook returns the code, counter, log and table are what they were, and a post can
be made again. -/
def Traceless (E : Env) (s : Capture) (c : Call) : Prop :=
  ∃ s', Capture.step E s c = some s' ∧ s'.app.ret = E.code s.app.now ∧
    s'.cptWrite = s.cptWrite ∧ s'.dir = s.dir ∧ s'.requestHtab = s.requestHtab ∧
    ∀ l b comm a, c = .irecv l b comm a → (Capture.step E s' c).isSome

/-- The process does not have its world rank in the communicator, or dumping is off. -/
def Capture.Undumped (E : Env) (s : Capture) (comm : Comm) : Prop :=
  E.rank comm ≠ E.rank worldComm ∨ s.activeDump = some 0

/-- A call that neither dumps nor touches the table. -/
def Call.Unseen (E : Env) (s : Capture) : Call → Prop
  | .recv _ _ comm | .allreduce _ _ comm | .alltoall _ _ comm | .alltoallv _ _ _ _ _ comm =>
    s.Undumped E comm
  | .irecv _ _ comm _ => E.rank comm ≠ E.rank worldComm
  | .wait _ a => s.registered E a = none
  | .waitall .c count array => ∀ a ∈ slots .c array count, s.registered E (s.app.reqs a) = none
  | .waitall .fortran count array => ∀ a ∈ slots .fortran array count, s.registered E a = none
  | .bcast _ _ root comm => s.Undumped E comm ∨ E.rank comm = root
  | .reduce _ _ root comm => s.Undumped E comm ∨ E.rank comm ≠ root
  | _ => True

instance (E : Env) (s : Capture) (comm : Comm) : Decidable (s.Undumped E comm) :=
  inferInstanceAs (Decidable (E.rank comm ≠ E.rank worldComm ∨ s.activeDump = some 0))

namespace Capture

variable {E : Env} {s s' : Capture} {ht : Htable} {c : Call}

/-- A blocking receive or a collective leaves no trace exactly if nothing is dumped. -/
theorem receive_traceless {ps : List Addr} {dump : Bool} {b : Buf}
    (hstep : step E s c = receive E s ps dump b) (hc : ∀ l b comm a, c ≠ .irecv l b comm a) :
    Traceless E s c ↔ (dump = true → s.activeDump = some 0) := by
  unfold Traceless
  rw [hstep]
  constructor
  · rintro ⟨s', hs', -, hcpt, -⟩ hd
    subst hd
    have hw : writeInFile E { s with app := pmpiReceive E.toWorld s.app ps } b = some s' := hs'
    rcases writeInFile_some hw with ⟨h0, -⟩ | ⟨-, -, rfl⟩
    · exact h0
    · simp [wrote] at hcpt
  · intro h
    refine ⟨_, receive_undumped h, rfl, rfl, rfl, rfl, ?_⟩
    intro l b comm a he
    exact absurd he (hc l b comm a)

/-- The hooks that dump on the process recognised, where `q`. -/
theorem dumps_traceless (hs : s.mpireRank = E.rank worldComm) {comm : Comm} {q : Prop}
    {ps : List Addr} {dump : Bool} {b : Buf} (hd : dump = true ↔ E.rank comm = s.mpireRank ∧ q)
    (hstep : step E s c = receive E s ps dump b) (hc : ∀ l b comm a, c ≠ .irecv l b comm a) :
    Traceless E s c ↔ s.Undumped E comm ∨ ¬ q := by
  rw [receive_traceless hstep hc, hd, hs]
  unfold Undumped
  by_cases hq : q
  · by_cases hrank : E.rank comm = E.rank worldComm <;> simp [hq, hrank]
  · simp [hq]

/-- A post leaves no trace exactly if the process is not recognised. -/
theorem irecv_traceless (hs : s.Ready E ht) (l : Lang) (b : Buf) (comm : Comm) (a : Addr)
    (hf : E.code s.app.now ≠ mpiSuccess) :
    Traceless E s (.irecv l b comm a) ↔ E.rank comm ≠ E.rank worldComm := by
  have hstep : ∀ s, step E s (.irecv l b comm a) = irecv l E s b comm a := by
    intro s
    cases l <;> rfl
  unfold Traceless
  simp only [hstep]
  constructor
  · rintro ⟨s', hs', -, -, -, htab, -⟩ hrank
    by_cases hv : ht.view E.hashPointer a = none
    · rw [irecv_eq hs l (hrank.trans hs.rank.symm) hv] at hs'
      cases hs'
      -- the table has one entry more
      have hlen := congrArg List.length (Option.some.inj (htab.trans hs.table))
      simp [Htable.posted, HashBag.add] at hlen
    · unfold irecv at hs'
      rw [if_pos (hrank.trans hs.rank.symm), register_exit hs hv] at hs'
      cases hs'
  · intro hrank
    have hpost : ∀ s : Capture, s.mpireRank = E.rank worldComm → irecv l E s b comm a =
        some { s with app := pmpiPostVar E.toWorld s.app l a (some b) } := by
      intro s hs
      unfold irecv
      rw [if_neg (hs ▸ hrank)]
      rfl
    refine ⟨_, hpost s hs.rank, ?_, rfl, rfl, rfl, ?_⟩
    · unfold pmpiPostVar pmpiPost
      rw [if_neg hf]
      rfl
    · intro l' b' comm' a' _
      rw [hpost { s with app := pmpiPostVar E.toWorld s.app l a (some b) } hs.rank]
      rfl

/-- A wait leaves no trace exactly if its loop finds nothing. -/
theorem drain_traceless (hs : s.Ready E ht) {app : App} (key : Addr → Addr) {as : List Addr}
    (hret : app.ret = E.code s.app.now) (hc : ∀ l b comm a, c ≠ .irecv l b comm a)
    (hstep : step E s c = drain E { s with app := app } fun x =>
      as.foldlM (fun x a => settle E.hashPointer (writeInFile E) (key a) a x) x) :
    Traceless E s c ↔ ∀ a ∈ as, s.registered E (key a) = none := by
  unfold Traceless
  rw [hstep, hs.registered_eq]
  unfold drain
  simp only [hs.rank, if_true, hs.table, Option.bind_eq_bind, Option.bind_some]
  constructor
  · rintro ⟨s', hs', -, -, -, htab, -⟩
    obtain ⟨y, hy, hs'⟩ := Option.bind_eq_some_iff.1 hs'
    cases hs'
    have hlen := congrArg List.length (Option.some.inj htab)
    exact (settles_length as hy).2 hlen
  · intro hmiss
    rw [settles_miss (x := (_, ht)) as hmiss]
    refine ⟨_, rfl, hret, rfl, rfl, rfl, ?_⟩
    intro l b comm a he
    exact absurd he (hc l b comm a)

theorem wait_traceless (hs : s.Ready E ht) (l : Lang) (a : Addr)
    (hf : E.code s.app.now ≠ mpiSuccess) :
    Traceless E s (.wait l a) ↔ s.registered E a = none := by
  have hfail : ∀ h, pmpiWait E.toWorld s.app h = (s.app.tick E.toWorld, h) := by
    intro h
    unfold pmpiWait
    rw [if_neg hf]
  have hsame : (s.app.tick E.toWorld).setReq a (s.app.reqs a) = s.app.tick E.toWorld :=
    setReq_self rfl
  have hstep : step E s (.wait l a) = drain E { s with app := s.app.tick E.toWorld }
      (settle E.hashPointer (writeInFile E) a a) := by
    cases l with
    | c =>
      show mpiWait E s a = _
      unfold mpiWait
      simp only [hfail, hsame]
    | fortran =>
      show mpiWait_ E s a = _
      unfold mpiWait_
      simp only [hfail]
  rw [← funext (settleAll_single (writeInFile E) a)] at hstep
  have h := drain_traceless hs id rfl (by simp) hstep
  simpa using h

theorem waitall_traceless (hs : s.Ready E ht) (l : Lang) (count : Nat) (array : Addr)
    (hf : E.code s.app.now ≠ mpiSuccess) :
    Traceless E s (.waitall l count array) ↔ (Call.waitall l count array).Unseen E s := by
  have hfail : ∀ hs, pmpiWaitall E.toWorld s.app hs = (s.app.tick E.toWorld, hs) := by
    intro hs
    unfold pmpiWaitall
    rw [if_neg hf]
  cases l with
  | c =>
    -- the array gets back the handles it held
    have hsame : (s.app.tick E.toWorld).setReqs E.toWorld .c (slots .c array count)
        ((slots .c array count).map s.app.reqs) = s.app.tick E.toWorld := by
      apply setReqs_self
      exact List.map_id' _
    have hstep : step E s (.waitall .c count array) =
        drain E { s with app := s.app.tick E.toWorld } fun x =>
          (slots .c array count).foldlM (fun x a =>
            settle E.hashPointer (writeInFile E) (s.app.reqs a) a x) x := by
      show mpiWaitall E s count array = _
      unfold mpiWaitall
      simp only [hfail, hsame]
      rfl
    exact drain_traceless hs _ rfl (by simp) hstep
  | fortran =>
    have hstep : step E s (.waitall .fortran count array) =
        drain E { s with app := s.app.tick E.toWorld } fun x =>
          (slots .fortran array count).foldlM (fun x a =>
            settle E.hashPointer (writeInFile E) (id a) a x) x := by
      show mpiWaitall_ E s count array = _
      unfold mpiWaitall_
      simp only [hfail]
      rfl
    exact drain_traceless hs _ rfl (by simp) hstep

end Capture

variable {E : Env} {s : Capture} {mem : Mem} {reqs : Addr → Int} {dir : Dir} {evs : List Event}

/-- **Failed calls.** A call that failed leaves no trace exactly if it would leave none
had it succeeded. -/
theorem traceless_iff (hr : E.mpireRank = some (E.rank worldComm))
    (hs : Capture.exec E mem reqs dir evs = some s) {c : Call} (hc : c.isInbound)
    (hf : c.Fails E s.app) : Traceless E s c ↔ c.Unseen E s := by
  obtain ⟨ht, hs⟩ := Capture.exec_ready hr hs
  obtain ⟨hcode, hderef⟩ := hf
  have hrank := hs.rank
  -- the hooks that dump whenever the process is recognised
  have hdumps : ∀ {c : Call} {comm : Comm} (ps : List Addr) (b : Buf),
      Capture.step E s c = Capture.receive E s ps (decide (E.rank comm = s.mpireRank)) b →
      (∀ l b comm a, c ≠ .irecv l b comm a) → (Traceless E s c ↔ s.Undumped E comm) := by
    intro c comm ps b hstep hne
    have hd : decide (E.rank comm = s.mpireRank) = true ↔ E.rank comm = s.mpireRank ∧ True := by
      simp
    rw [Capture.dumps_traceless hrank hd hstep hne, not_true, or_false]
  cases c with
  | init l | finalize l | send l | isend l a | barrier l => cases hc
  | recv l b comm | allreduce l b comm =>
    refine hdumps b.cells b ?_ (by simp)
    cases l <;> rfl
  | alltoall l b comm =>
    refine hdumps (Buf.cells { b with count := b.count * E.size comm })
      { b with count := cInt (b.count * E.size comm) } ?_ (by simp)
    cases l <;> rfl
  | alltoallv l recvbuf rc rd t comm =>
    cases l with
    | c => exact hdumps (c := .alltoallv .c recvbuf rc rd t comm) _ _ rfl (by simp)
    | fortran =>
      obtain ⟨hrc, hrd⟩ := hderef recvbuf rc rd t comm rfl
      obtain ⟨rc', hrc⟩ := Option.isSome_iff_exists.1 hrc
      obtain ⟨rd', hrd⟩ := Option.isSome_iff_exists.1 hrd
      have hstep : Capture.step E s (.alltoallv .fortran recvbuf rc rd t comm) =
          Capture.mpiAlltoallv E s recvbuf rc' rd' t comm := by
        show Capture.mpiAlltoallv_ E s recvbuf rc rd t comm = _
        unfold Capture.mpiAlltoallv_
        rw [hrc, hrd]
        rfl
      exact hdumps _ _ hstep (by simp)
  | bcast l b root comm =>
    have hstep : Capture.step E s (.bcast l b root comm) =
        Capture.receive E s (if E.rank comm ≠ root then b.cells else [])
          (decide (E.rank comm = s.mpireRank ∧ E.rank comm ≠ root)) b := by
      cases l <;> rfl
    rw [Capture.dumps_traceless hrank decide_eq_true_iff hstep (by simp), not_not]
    rfl
  | reduce l b root comm =>
    have hstep : Capture.step E s (.reduce l b root comm) =
        Capture.receive E s (if E.rank comm = root then b.cells else [])
          (decide (E.rank comm = s.mpireRank ∧ E.rank comm = root)) b := by
      cases l <;> rfl
    exact Capture.dumps_traceless hrank decide_eq_true_iff hstep (by simp)
  | irecv l b comm a => exact Capture.irecv_traceless hs l b comm a hcode
  | wait l a => exact Capture.wait_traceless hs l a hcode
  | waitall l count array => exact Capture.waitall_traceless hs l count array hcode

/-- Every call after `MPI_Init` fails. -/
def failingProcesses : Env :=
  { fourProcesses with code := fun n => if n = 0 then mpiSuccess else 15 }

/-- A broadcast that fails on its root. -/
theorem traceless_bcastRoot :
    Traceless failingProcesses ((Capture.exec failingProcesses (fun _ => 0) (fun _ => 0)
      ⟨none, fun _ => none⟩ []).get (by decide)) (.bcast .c ⟨0, 1, .byte⟩ 0 worldComm) :=
  (traceless_iff rfl (Option.some_get (by decide)).symm rfl ⟨by decide, by simp⟩).2 (.inr rfl)

/-- A post that fails: its variable stays registered, and posting again is an exit. -/
theorem traced_irecv :
    let s := (Capture.exec failingProcesses (fun _ => 0) (fun _ => 0) ⟨none, fun _ => none⟩
      []).get (by decide)
    (Call.irecv .c ⟨0, 1, .byte⟩ worldComm 100).Fails failingProcesses s.app ∧
      ¬ Traceless failingProcesses s (.irecv .c ⟨0, 1, .byte⟩ worldComm 100) := by
  intro s
  refine ⟨⟨by decide, by simp⟩, ?_⟩
  rintro ⟨s', hs', -, -, -, -, hagain⟩
  have hexit : (Capture.step failingProcesses s (.irecv .c ⟨0, 1, .byte⟩ worldComm 100)).bind
      (fun s' => Capture.step failingProcesses s' (.irecv .c ⟨0, 1, .byte⟩ worldComm 100)) =
        none := by
    rfl
  rw [hs', Option.bind_some] at hexit
  have hsome := hagain .c ⟨0, 1, .byte⟩ worldComm 100 rfl
  rw [hexit] at hsome
  cases hsome

end MPIre

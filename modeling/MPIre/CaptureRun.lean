import MPIre.Library.Run
import MPIre.Lockstep
/-
# Whole runs of the capture library

What holds along any run, whatever the calls, their communicators and their errors: a
hook goes one of a few ways (`step_perform`), so a step only touches the log through
`write_in_file` (`step_keeps`), and the table stays sound (`event_ready`). Along a run of
captured calls the table is a function of the calls alone (`run_table`), and a
disciplined run gets through (`event_live`).
-/
namespace MPIre
open Gather Run

namespace Capture

variable {E : Env} {s s' : Capture} {ht : Htable} {c : Call}

/-- The state `write_in_file` returns in with dumping in force. -/
def wrote (E : Env) (s : Capture) (b : Buf) : Capture :=
  let a := E.access s.hist.length
  let payload := if a.xfer = mpiSuccess then gather s.app.mem b.cells else []
  { s with
    cptWrite := s.cptWrite + 1
    dir := if a.fopen = mpiSuccess
      then { s.dir with record := Journal.write s.dir.record s.cptWrite payload } else s.dir
    hist := s.hist ++ [⟨s.cptWrite, b, a⟩] }

/-- Everything `write_in_file` can do if it returns. -/
theorem writeInFile_some {b : Buf} (h : writeInFile E s b = some s') :
    (s.activeDump = some 0 ∧ s' = s) ∨
      (s.activeDump ≠ some 0 ∧ 0 ≤ (E.access s.hist.length).fopen ∧ s' = s.wrote E b) := by
  unfold writeInFile at h
  split at h
  · cases h
  · rename_i v hv
    by_cases h0 : v = 0
    · rw [if_pos h0] at h
      exact .inl ⟨by rw [hv, h0], (Option.some.inj h).symm⟩
    · rw [if_neg h0] at h
      simp only at h
      split at h
      · cases h
      · rename_i hf
        refine .inr ⟨?_, Int.not_lt.1 hf, (Option.some.inj h).symm⟩
        rw [hv]
        exact fun he => h0 (Option.some.inj he)

/-- Everything `init_MPIre` can do if it returns. -/
theorem initMPIre_some (h : initMPIre E s = some s') : ∃ r, E.mpireRank = some r ∧
    (E.rank worldComm = r ∧ E.nprocsOpens = true ∧ s' = { s with
        mpireRank := r
        activeDump := some (s.activeDump.getD 1)
        outputPath := snprintf 128 (E.mpireOutputPath.getD (defaultPath r))
        requestHtab := some []
        dir := { s.dir with nprocs := some (E.size worldComm) } } ∨
      E.rank worldComm ≠ r ∧ s' = { s with mpireRank := r }) := by
  unfold initMPIre at h
  split at h
  · cases h
  · rename_i r hr
    refine ⟨r, hr, ?_⟩
    by_cases hw : E.rank worldComm = r
    · rw [if_pos hw] at h
      split at h
      · exact .inl ⟨hw, ‹_›, (Option.some.inj h).symm⟩
      · cases h
    · rw [if_neg hw] at h
      exact .inr ⟨hw, (Option.some.inj h).symm⟩

/-- On the captured process. -/
theorem initMPIre_chosen (hr : E.mpireRank = some (E.rank worldComm))
    (h : initMPIre E s = some s') : E.nprocsOpens = true ∧ s' = { s with
      mpireRank := E.rank worldComm
      activeDump := some (s.activeDump.getD 1)
      outputPath := snprintf 128 (E.mpireOutputPath.getD (defaultPath (E.rank worldComm)))
      requestHtab := some []
      dir := { s.dir with nprocs := some (E.size worldComm) } } := by
  obtain ⟨r, hr', h⟩ := initMPIre_some h
  obtain rfl : E.rank worldComm = r := Option.some.inj (hr.symm.trans hr')
  rcases h with ⟨-, hopens, rfl⟩ | ⟨hne, -⟩
  · exact ⟨hopens, rfl⟩
  · exact absurd rfl hne

/-! ## The ways a hook goes -/

inductive Action where
  | init
  | finalize
  | answer (app : App)
  | receive (ps : List Addr) (dump : Bool) (b : Buf)
  | post (l : Lang) (b : Buf) (comm : Comm) (request : Addr)
  | drain (app : App) (key : Addr → Addr) (requests : List Addr)
  | fault

def perform (E : Env) (s : Capture) : Action → Option Capture
  | .init => mpiInit E s
  | .finalize => mpiFinalize E s
  | .answer app => some { s with app := app }
  | .receive ps dump b => receive E s ps dump b
  | .post l b comm a => irecv l E s b comm a
  | .drain app key as => drain E { s with app := app } fun x =>
      as.foldlM (fun x a => settle E.hashPointer (writeInFile E) (key a) a x) x
  | .fault => none

/-- The arrays of `mpi_alltoallv_` decide whether it faults. -/
def alltoallvAction (E : Env) (rank : Int) (recvbuf : Addr) (t : Datatype) (comm : Comm) :
    Option (Nat → Int) → Option (Nat → Int) → Action
  | some rc, some rd => .receive ((blocks recvbuf rc rd t (E.size comm)).flatMap Buf.cells)
      (E.rank comm = rank) ⟨recvbuf, totalRecvcounts rc (E.size comm), t⟩
  | _, _ => .fault

/-- By the application and the rank that the library looks for. -/
def callAction (E : Env) (p : App) (rank : Int) : Call → Action
  | .init _ => .init
  | .finalize _ => .finalize
  | .send _ | .barrier _ => .answer (p.tick E.toWorld)
  | .isend l a => .answer (pmpiPostVar E.toWorld p l a none)
  | .recv _ b comm | .allreduce _ b comm => .receive b.cells (E.rank comm = rank) b
  | .irecv l b comm a => .post l b comm a
  | .wait l a => .drain (effect E.toWorld p (.wait l a)) id [a]
  | .waitall .c count array =>
    .drain (effect E.toWorld p (.waitall .c count array))
      (effect E.toWorld p (.waitall .c count array)).reqs (slots .c array count)
  | .waitall .fortran count array =>
    .drain (effect E.toWorld p (.waitall .fortran count array)) id (slots .fortran array count)
  | .bcast _ b root comm => .receive (if E.rank comm ≠ root then b.cells else [])
      (E.rank comm = rank ∧ E.rank comm ≠ root) b
  | .alltoall _ b comm => .receive (Buf.cells { b with count := b.count * E.size comm })
      (E.rank comm = rank) { b with count := cInt (b.count * E.size comm) }
  | .alltoallv .c recvbuf rc rd t comm =>
    alltoallvAction E rank recvbuf t comm (some rc) (some rd)
  | .alltoallv .fortran recvbuf rc rd t comm =>
    alltoallvAction E rank recvbuf t comm (E.deref rc) (E.deref rd)
  | .reduce _ b root comm => .receive (if E.rank comm = root then b.cells else [])
      (E.rank comm = rank ∧ E.rank comm = root) b

theorem step_perform (E : Env) (s : Capture) (c : Call) :
    step E s c = perform E s (callAction E s.app s.mpireRank c) := by
  cases c with
  | wait l a =>
    have hone : ∀ app : App, drain E { s with app := app }
        (settle E.hashPointer (writeInFile E) a a) = perform E s (.drain app id [a]) := by
      intro app
      rw [← funext (settleAll_single (writeInFile E) a)]
      rfl
    cases l <;> exact hone _
  | alltoallv l recvbuf rc rd t comm =>
    cases l with
    | c => rfl
    | fortran =>
      show mpiAlltoallv_ E s recvbuf rc rd t comm =
        perform E s (alltoallvAction E s.mpireRank recvbuf t comm (E.deref rc) (E.deref rd))
      unfold mpiAlltoallv_
      cases E.deref rc with
      | none => rfl
      | some rc' => cases E.deref rd <;> rfl
  | recv l | irecv l | waitall l | bcast l | alltoall l | allreduce l | reduce l => cases l <;> rfl
  | _ => rfl

/-! ## What no step changes -/

section keeps

variable {P : Capture → Prop}

section app

variable (hf : ∀ s app ht, P s → P { s with app := app, requestHtab := ht })
include hf

theorem drain_keeps {loop : Capture × Htable → Option (Capture × Htable)}
    (hl : ∀ x y, P x.1 → loop x = some y → P y.1) (hs : P s) (h : drain E s loop = some s') :
    P s' := by
  unfold drain at h
  split at h
  · obtain ⟨ht, -, h⟩ := Option.bind_eq_some_iff.1 h
    obtain ⟨x, hx, h⟩ := Option.bind_eq_some_iff.1 h
    cases h
    exact hf _ _ _ (hl _ _ hs hx)
  · cases h
    exact hs

theorem irecv_keeps {l : Lang} {b : Buf} {comm : Comm} {a : Addr} (hs : P s)
    (h : irecv l E s b comm a = some s') : P s' := by
  unfold irecv at h
  split at h
  · obtain ⟨s₁, hs₁, h⟩ := Option.bind_eq_some_iff.1 h
    obtain ⟨ht, -, hs₁⟩ := Option.bind_eq_some_iff.1 hs₁
    obtain ⟨ht', -, hs₁⟩ := Option.bind_eq_some_iff.1 hs₁
    cases hs₁
    cases h
    exact hf s _ _ hs
  · cases h
    exact hf s _ s.requestHtab hs

end app

variable (hw : ∀ s b s', P s → writeInFile E s b = some s' → P s')
  (hf : ∀ s app ht, P s → P { s with app := app, requestHtab := ht })
include hw hf

theorem receive_keeps {ps : List Addr} {dump : Bool} {b : Buf} (hs : P s)
    (h : receive E s ps dump b = some s') : P s' := by
  unfold receive at h
  have hs₁ := hf s (pmpiReceive E.toWorld s.app ps) s.requestHtab hs
  cases dump with
  | false =>
    cases h
    exact hs₁
  | true => exact hw _ _ _ hs₁ h

/-- A property of what is neither the application nor the table is kept by every call
if `write_in_file` and `init_MPIre` keep it. -/
theorem step_keeps (hi : ∀ s s', P s → initMPIre E s = some s' → P s') (hs : P s)
    (h : step E s c = some s') : P s' := by
  have happ : ∀ (s : Capture) (app : App), P s → P { s with app := app } :=
    fun s app hs => hf s app s.requestHtab hs
  rw [step_perform] at h
  generalize callAction E s.app s.mpireRank c = act at h
  cases act with
  | init => exact hi _ _ (happ s _ hs) h
  | finalize =>
    cases h
    exact hf s _ _ hs
  | answer app =>
    cases h
    exact happ s _ hs
  | receive ps dump b => exact receive_keeps hw hf hs h
  | post l b comm a => exact irecv_keeps hf hs h
  | drain app key as =>
    exact drain_keeps hf (fun _ _ hx hl => settles_keeps hw _ hx hl) (happ s _ hs) h
  | fault => cases h

end keeps

/-- The captured process keeps the copy of the directory string that `MPI_Init` makes. -/
theorem step_path (hr : E.mpireRank = some (E.rank worldComm))
    (hs : s.outputPath = snprintf 128 (E.mpireOutputPath.getD (defaultPath (E.rank worldComm))))
    (h : step E s c = some s') :
    s'.outputPath = snprintf 128 (E.mpireOutputPath.getD (defaultPath (E.rank worldComm))) := by
  refine step_keeps (P := fun s => s.outputPath =
    snprintf 128 (E.mpireOutputPath.getD (defaultPath (E.rank worldComm)))) ?_
    (fun _ _ _ hs => hs) ?_ hs h
  · intro s b s' hs hw
    rcases writeInFile_some hw with ⟨-, rfl⟩ | ⟨-, -, rfl⟩
    · exact hs
    · exact hs
  · intro s s' hs hi
    obtain ⟨-, rfl⟩ := initMPIre_chosen hr hi
    rfl

/-! ## The table stays sound -/

/-- The table is initialised and sound. -/
def Filed (E : Env) (s : Capture) : Prop :=
  ∃ ht, s.requestHtab = some ht ∧ ht.Sound E.hashPointer

/-- The receive registered on a variable. -/
def registered (E : Env) (s : Capture) (a : Addr) : Option Buf :=
  s.requestHtab.bind fun ht => ht.view E.hashPointer a

theorem Ready.registered_eq (hs : s.Ready E ht) : s.registered E = ht.view E.hashPointer := by
  funext a
  unfold Capture.registered
  rw [hs.table]
  rfl

theorem writeInFile_filed {b : Buf} (hs : s.Filed E) (h : writeInFile E s b = some s') :
    s'.Filed E := by
  rcases writeInFile_some h with ⟨-, rfl⟩ | ⟨-, -, rfl⟩
  · exact hs
  · exact hs

theorem Filed.set_app (hs : s.Filed E) (app : App) : { s with app := app }.Filed E := hs

theorem receive_filed {ps : List Addr} {dump : Bool} {b : Buf} (hs : s.Filed E)
    (h : receive E s ps dump b = some s') : s'.Filed E := by
  unfold receive at h
  cases dump with
  | false =>
    cases h
    exact hs
  | true => exact writeInFile_filed (hs.set_app _) h

theorem drain_filed {key : Addr → Addr} {as : List Addr} (hs : s.Filed E)
    (h : drain E s (fun x => as.foldlM
      (fun x a => settle E.hashPointer (writeInFile E) (key a) a x) x) = some s') :
    s'.Filed E := by
  unfold drain at h
  split at h
  · obtain ⟨ht, hht, hsound⟩ := hs
    simp only [hht, Option.bind_eq_bind, Option.bind_some] at h
    obtain ⟨x, hx, h⟩ := Option.bind_eq_some_iff.1 h
    cases h
    exact ⟨_, rfl, settles_sound as hsound hx⟩
  · cases h
    exact hs

theorem irecv_filed {l : Lang} {b : Buf} {comm : Comm} {a : Addr} (hs : s.Filed E)
    (h : irecv l E s b comm a = some s') : s'.Filed E := by
  unfold irecv at h
  split at h
  · obtain ⟨s₁, hs₁, h⟩ := Option.bind_eq_some_iff.1 h
    obtain ⟨ht, hht, hs₁⟩ := Option.bind_eq_some_iff.1 hs₁
    obtain ⟨ht', hadd, hs₁⟩ := Option.bind_eq_some_iff.1 hs₁
    obtain ⟨ht₀, hht₀, hsound⟩ := hs
    obtain rfl : ht₀ = ht := Option.some.inj (hht₀.symm.trans hht)
    obtain ⟨hv, rfl⟩ := addRequest_some hadd
    cases hs₁
    cases h
    exact ⟨_, rfl, hsound.posted hv⟩
  · cases h
    exact hs

theorem step_filed (hr : E.mpireRank = some (E.rank worldComm)) (hs : s.Filed E)
    (h : step E s c = some s') : s'.Filed E := by
  rw [step_perform] at h
  generalize callAction E s.app s.mpireRank c = act at h
  cases act with
  | init =>
    have h : initMPIre E { s with app := s.app.tick E.toWorld } = some s' := h
    obtain ⟨-, rfl⟩ := initMPIre_chosen hr h
    exact ⟨[], rfl, Htable.sound_nil⟩
  | finalize =>
    cases h
    exact ⟨[], rfl, Htable.sound_nil⟩
  | answer app =>
    cases h
    exact hs
  | receive ps dump b => exact receive_filed hs h
  | post l b comm a => exact irecv_filed hs h
  | drain app key as => exact drain_filed (hs.set_app _) h
  | fault => cases h

/-- Being ready for the next call is kept by every event that does not end the process. -/
theorem event_ready (hr : E.mpireRank = some (E.rank worldComm)) (hs : s.Ready E ht) {ev : Event}
    (h : event E s ev = some s') : ∃ ht', s'.Ready E ht' := by
  cases ev with
  | compute f =>
    cases h
    exact ⟨ht, hs.set_app _⟩
  | copy dst src =>
    cases h
    exact ⟨ht, hs.set_app _⟩
  | setenv v =>
    cases h
    exact ⟨ht, hs.rank, Option.some_ne_none v, hs.table, hs.sound, hs.nprocs⟩
  | call c =>
    obtain ⟨ht', hht', hsound⟩ := step_filed hr ⟨ht, hs.table, hs.sound⟩ h
    have hkeep : s'.mpireRank = E.rank worldComm ∧ s'.activeDump ≠ none ∧
        s'.dir.nprocs = some (E.size worldComm) := by
      refine step_keeps (P := fun s => s.mpireRank = E.rank worldComm ∧ s.activeDump ≠ none ∧
        s.dir.nprocs = some (E.size worldComm)) ?_ (fun _ _ _ hs => hs) ?_
        ⟨hs.rank, hs.active, hs.nprocs⟩ h
      · intro s b s' hs hw
        rcases writeInFile_some hw with ⟨-, rfl⟩ | ⟨-, -, rfl⟩
        · exact hs
        · refine ⟨hs.1, hs.2.1, ?_⟩
          unfold wrote
          simp only
          split <;> exact hs.2.2
      · intro s s' hs hi
        obtain ⟨-, rfl⟩ := initMPIre_chosen hr hi
        exact ⟨rfl, Option.some_ne_none _, rfl⟩
    exact ⟨ht', hkeep.1, hkeep.2.1, hht', hsound, hkeep.2.2⟩

theorem run_ready (hr : E.mpireRank = some (E.rank worldComm)) (hs : s.Ready E ht)
    {evs : List Event} (h : run (event E) s evs = some s') : ∃ ht', s'.Ready E ht' :=
  run_safe (I := fun s => ∃ ht, s.Ready E ht) (fun _ _ _ ⟨_, hs⟩ _ he => event_ready hr hs he)
    ⟨ht, hs⟩ (along_true s evs) h

end Capture

/-! ## Runs of captured calls -/

def Event.captured : Event → Bool
  | .call c => c.captured
  | _ => true

def Event.call? : Event → Option Call
  | .call c => some c
  | _ => none

/-- The table after a list of calls none of which was refused. -/
def Htable.afterAll (hash : Addr → UInt32) (ht : Htable) (cs : List Call) : Htable :=
  cs.foldl (Htable.after hash) ht

/-- A captured call of a disciplined run; nothing is asked of the other events. -/
def Event.Disciplined (W : World) (p : App) : Event → Prop
  | .call c => c.captured ∧ c.Disciplined W p
  | _ => True

/-- The library agrees with MPI on what is pending. -/
structure Capture.Live (E : Env) (s : Capture) (ht : Htable) : Prop where
  ready : s.Ready E ht
  tracked : Tracked E.hashPointer 0 s.app.ops ht
  timely : s.app.Timely

namespace Capture

variable {E : Env} {s s' : Capture} {ht : Htable}

theorem start_live (mem : Mem) (reqs : Addr → Int) (dir : Dir) :
    (start E mem reqs dir).Live E [] :=
  ⟨start_ready mem reqs dir, start_tracked 0 mem reqs dir _, start_timely mem reqs dir⟩

theorem Live.setenv (hs : s.Live E ht) (v : Int) : { s with activeDump := some v }.Live E ht :=
  ⟨⟨hs.ready.rank, Option.some_ne_none v, hs.ready.table, hs.ready.sound, hs.ready.nprocs⟩,
    hs.tracked, hs.timely⟩

/-- A call that did not exit found its variable unregistered. -/
theorem unregistered_of_step {c : Call} (hs : s.Ready E ht) (hc : c.captured)
    (h : step E s c = some s') : c.Unregistered (ht.view E.hashPointer) := by
  cases c with
  | irecv l b comm a =>
    obtain rfl : comm = worldComm := beq_iff_eq.1 hc
    by_contra hv
    rw [step_exit hs hv] at h
    cases h
  | _ => trivial

theorem event_table (hF : E.FilesOk) (hs : s.Ready E ht) {ev : Event} (hc : ev.captured)
    (h : event E s ev = some s') :
    s'.Ready E (ht.afterAll E.hashPointer ev.call?.toList) := by
  cases ev with
  | compute f =>
    cases h
    exact hs.set_app _
  | copy dst src =>
    cases h
    exact hs.set_app _
  | setenv v =>
    cases h
    exact ⟨hs.rank, Option.some_ne_none v, hs.table, hs.sound, hs.nprocs⟩
  | call c =>
    have hu := unregistered_of_step hs hc h
    have h : step E s c = some s' := h
    rw [step_eq hs hF hc hu] at h
    cases h
    exact hs.step hu _

/-- The table is a function of the calls: no flag, memory or request content enters it. -/
theorem run_table (hF : E.FilesOk) {evs : List Event} (hc : ∀ ev ∈ evs, ev.captured)
    (hs : s.Ready E ht) (h : run (event E) s evs = some s') :
    s'.Ready E (ht.afterAll E.hashPointer (evs.filterMap Event.call?)) := by
  induction evs generalizing s ht with
  | nil =>
    cases h
    exact hs
  | cons ev evs ih =>
    obtain ⟨m, hm, h⟩ := Option.bind_eq_some_iff.1 h
    have hm' := event_table hF hs (hc ev (by simp)) hm
    have ih' := ih (fun ev' h' => hc ev' (by simp [h'])) hm' h
    cases ev <;> exact ih'

theorem event_live (hE : E.Captures) (hs : s.Live E ht) {ev : Event}
    (ho : ev.Disciplined E.toWorld s.app) : ∃ s' ht', event E s ev = some s' ∧ s'.Live E ht' := by
  cases ev with
  | compute f => exact ⟨_, ht, rfl, hs.ready.set_app _, hs.tracked, hs.timely⟩
  | copy dst src => exact ⟨_, ht, rfl, hs.ready.set_app _, hs.tracked, hs.timely⟩
  | setenv v => exact ⟨_, ht, rfl, hs.setenv v⟩
  | call c =>
    obtain ⟨s', hs', hr, hT, happ, -⟩ := step_orderly hs.ready hE hs.tracked ho.1 ho.2
    exact ⟨s', _, hs', hr, hT, happ ▸ hs.timely.step hE.comm c⟩

end Capture

end MPIre

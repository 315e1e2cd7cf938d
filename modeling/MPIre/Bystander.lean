import MPIre.Transparent
/-
# The processes that are not captured

Every process of the job runs under the capture library; `MPIRE_RANK` names one by its
world rank. The hooks find out whether they are that one by the rank in the
communicator of the call, so another process is left alone as long as it is not renumbered
to `MPIRE_RANK` in a communicator it receives on. Otherwise it dumps, into the path it never
set (`chosen_onSelf`).

`only_chosen` is about two things. The library of another process stays as it was loaded if
each call spares it; whether a wait or an `mpi_alltoallv_` from Fortran is the call that plain
MPI would have made is a question of its own, and of `Call.HandedOn`.

| here | there |
| --- | --- |
| `Job.step`       | one process of the job makes one call; a process that has exited stays gone |
| `Call.Spares`    | no hook takes the process for the captured one |
| `Untouched`      | the library of a process as it was loaded |
-/
namespace MPIre
open Run

/-- In the communicator of the call the process does not have rank `k`, or it has nothing to
dump. -/
def Call.Spares (E : Env) (k : Int) (s : Capture) : Call → Prop
  | .recv _ _ comm | .allreduce _ _ comm | .alltoall _ _ comm | .alltoallv _ _ _ _ _ comm =>
    E.rank comm ≠ k ∨ s.activeDump = some 0
  | .irecv _ _ comm _ => E.rank comm ≠ k
  | .bcast _ _ root comm => E.rank comm ≠ k ∨ E.rank comm = root ∨ s.activeDump = some 0
  | .reduce _ _ root comm => E.rank comm ≠ k ∨ E.rank comm ≠ root ∨ s.activeDump = some 0
  | _ => True

def Call.isInit : Call → Bool
  | .init _ => true
  | _ => false

/-- `MPI_Init` is the first call. -/
def Event.Begun (s : Capture) : Event → Prop
  | .call c => c.isInit ∨ 0 < s.app.now
  | _ => True

def Event.Spares (E : Env) (k : Int) (s : Capture) : Event → Prop
  | .call c => c.Spares E k s
  | _ => True

instance (E : Env) (k : Int) (s : Capture) : ∀ c : Call, Decidable (c.Spares E k s)
  | .recv _ _ comm | .allreduce _ _ comm | .alltoall _ _ comm | .alltoallv _ _ _ _ _ comm =>
    inferInstanceAs (Decidable (E.rank comm ≠ k ∨ s.activeDump = some 0))
  | .irecv _ _ comm _ => inferInstanceAs (Decidable (E.rank comm ≠ k))
  | .bcast _ _ root comm =>
    inferInstanceAs (Decidable (E.rank comm ≠ k ∨ E.rank comm = root ∨ s.activeDump = some 0))
  | .reduce _ _ root comm =>
    inferInstanceAs (Decidable (E.rank comm ≠ k ∨ E.rank comm ≠ root ∨ s.activeDump = some 0))
  | .wait .. | .waitall .. | .init _ | .finalize _ | .send _ | .isend .. | .barrier _ =>
    isTrue trivial

instance (s : Capture) : ∀ ev : Event, Decidable (ev.Begun s)
  | .call c => inferInstanceAs (Decidable (c.isInit ∨ 0 < s.app.now))
  | .compute _ | .setenv _ | .copy .. => isTrue trivial

instance (E : Env) (k : Int) (s : Capture) : ∀ ev : Event, Decidable (ev.Spares E k s)
  | .call c => inferInstanceAs (Decidable (c.Spares E k s))
  | .compute _ | .setenv _ | .copy .. => isTrue trivial

/-- Nothing registered, nothing written, no path. -/
structure Capture.Untouched (dir : Dir) (s : Capture) : Prop where
  table : s.requestHtab.getD [] = []
  cptWrite : s.cptWrite = 0
  hist : s.hist = []
  path : s.outputPath = []
  dir : s.dir = dir

/-! ## One call of another process -/

namespace Capture

variable {E : Env} {k : Int} {s s' : Capture} {dir : Dir} {c : Call}

/-- It neither registers nor dumps. -/
def Action.Spares (E : Env) (s : Capture) : Action → Prop
  | .init => False
  | .receive _ dump _ => dump = true → s.activeDump = some 0
  | .post _ _ comm _ => E.rank comm ≠ s.mpireRank
  | _ => True

/-- On another process an action that spares it is the `PMPI_` call. -/
theorem perform_spared (hw : E.rank worldComm ≠ s.mpireRank) {act : Action} (ha : act.Spares E s)
    (hf : act ≠ .fault) :
    ∃ tab, perform E s act =
        some { s with app := act.after E.toWorld s.app, requestHtab := tab } ∧
      (tab = s.requestHtab ∨ tab = some []) := by
  cases act with
  | init => exact ha.elim
  | finalize => exact ⟨_, rfl, .inr rfl⟩
  | answer app => exact ⟨_, rfl, .inl rfl⟩
  | receive ps dump b => exact ⟨_, receive_undumped ha, .inl rfl⟩
  | post l b comm a =>
    refine ⟨_, ?_, .inl rfl⟩
    show irecv l E s b comm a = _
    unfold irecv
    rw [if_neg ha]
    rfl
  | drain app key as =>
    refine ⟨_, ?_, .inl rfl⟩
    unfold perform drain
    exact if_neg hw
  | fault => exact absurd rfl hf

theorem callAction_spares (hi : c.isInit = false) (hc : c.Spares E s.mpireRank s) :
    (callAction E s.app s.mpireRank c).Spares E s := by
  have hrecv : ∀ {comm : Comm}, E.rank comm ≠ s.mpireRank ∨ s.activeDump = some 0 →
      decide (E.rank comm = s.mpireRank) = true → s.activeDump = some 0 := fun h hd =>
    h.resolve_left fun hne => hne (of_decide_eq_true hd)
  cases c with
  | init l => cases hi
  | recv l b comm | allreduce l b comm | alltoall l b comm => exact hrecv hc
  | irecv l b comm a => exact hc
  | alltoallv l recvbuf rc rd t comm =>
    have hany : ∀ rc rd : Option (Nat → Int),
        (alltoallvAction E s.mpireRank recvbuf t comm rc rd).Spares E s := by
      intro rc rd
      unfold alltoallvAction
      split
      · exact hrecv hc
      · trivial
    cases l with
    | c => exact hany (some rc) (some rd)
    | fortran => exact hany (E.deref rc) (E.deref rd)
  | bcast l b root comm =>
    intro hd
    obtain ⟨hrank, hroot⟩ := of_decide_eq_true hd
    exact (hc.resolve_left fun h => h hrank).resolve_left hroot
  | reduce l b root comm =>
    intro hd
    obtain ⟨hrank, hroot⟩ := of_decide_eq_true hd
    exact (hc.resolve_left fun h => h hrank).resolve_left fun h => h hroot
  | waitall l count array => cases l <;> trivial
  | _ => trivial

/-- Only an indirection of `mpi_alltoallv_` faults. -/
theorem action_ne_fault {rank : Int} (hc : c.HandedOn E.toWorld s.app) :
    callAction E s.app rank c ≠ .fault := by
  cases c with
  | alltoallv l recvbuf rc rd t comm =>
    obtain rfl : l = .c := hc
    exact nofun
  | waitall l count array => cases l <;> exact nofun
  | _ => exact nofun

theorem Untouched.keep (hu : s.Untouched dir) (app : App) (rank : Int) {tab : Option Htable}
    (ht : tab = s.requestHtab ∨ tab = some []) (flag : Option Int) :
    { s with app := app, mpireRank := rank, requestHtab := tab,
             activeDump := flag }.Untouched dir := by
  refine ⟨?_, hu.cptWrite, hu.hist, hu.path, hu.dir⟩
  rcases ht with rfl | rfl
  · exact hu.table
  · rfl

/-- The library of a process that is not the captured one. -/
def Idle (k : Int) (dir : Dir) (s : Capture) : Prop :=
  s.Untouched dir ∧ (s.app.now = 0 ∨ s.mpireRank = k)

theorem init_idle (hk : E.mpireRank = some k) (hw : E.rank worldComm ≠ k) (hs : s.Idle k dir)
    (l : Lang) : ∃ s', step E s (.init l) = some s' ∧ s'.Idle k dir := by
  have hinit : step E s (.init l) =
      some { s with app := s.app.tick E.toWorld, mpireRank := k } := by
    show initMPIre E _ = _
    unfold initMPIre
    simp only [hk, if_neg hw]
  exact ⟨_, hinit, hs.1.keep _ _ (.inl rfl) _, .inr rfl⟩

theorem rank_of_begun (hs : s.Idle k dir) (hb : Event.Begun s (.call c)) (hi : c.isInit = false) :
    s.mpireRank = k := by
  have hnow : 0 < s.app.now := hb.resolve_left (by simp [hi])
  exact hs.2.resolve_left (by omega)

/-- The step lemma: an event that spares a process that is not the captured one. -/
theorem event_idle (hk : E.mpireRank = some k) (hw : E.rank worldComm ≠ k) (hs : s.Idle k dir)
    {ev : Event} (hb : ev.Begun s) (hc : ev.Spares E k s) (h : event E s ev = some s') :
    s'.Idle k dir := by
  cases ev with
  | compute f | setenv v | copy dst src =>
    cases h
    exact ⟨hs.1.keep _ _ (.inl rfl) _, hs.2⟩
  | call c =>
    have h : step E s c = some s' := h
    cases hi : c.isInit with
    | true =>
      obtain ⟨l, rfl⟩ : ∃ l, c = .init l := by
        cases c <;> simp_all [Call.isInit]
      obtain ⟨s₁, hs₁, hidle⟩ := init_idle hk hw hs l
      cases hs₁.symm.trans h
      exact hidle
    | false =>
      have hrank := rank_of_begun hs hb hi
      subst hrank
      rw [step_perform] at h
      have hf : callAction E s.app s.mpireRank c ≠ .fault := by
        intro hf
        rw [hf] at h
        cases h
      obtain ⟨tab, hstep, htab⟩ := perform_spared hw (callAction_spares hi hc) hf
      cases hstep.symm.trans h
      exact ⟨hs.1.keep _ _ htab _, .inr rfl⟩

/-- It does not end the process if its binding hands it on. -/
theorem event_returns (hk : E.mpireRank = some k) (hw : E.rank worldComm ≠ k)
    (hs : s.Idle k dir) {ev : Event} (hb : ev.Begun s) (hc : ev.Spares E k s)
    (ho : ev.HandedOn E.toWorld s.app) : ∃ s', event E s ev = some s' := by
  cases ev with
  | compute f | setenv v | copy dst src => exact ⟨_, rfl⟩
  | call c =>
    cases hi : c.isInit with
    | true =>
      obtain ⟨l, rfl⟩ : ∃ l, c = .init l := by
        cases c <;> simp_all [Call.isInit]
      obtain ⟨s', hs', -⟩ := init_idle hk hw hs l
      exact ⟨s', hs'⟩
    | false =>
      have hrank := rank_of_begun hs hb hi
      subst hrank
      obtain ⟨tab, hstep, -⟩ := perform_spared hw (callAction_spares hi hc) (action_ne_fault ho)
      exact ⟨_, (step_perform E s c).trans hstep⟩

/-- The library of the captured process, initialised by its first call. -/
def Chosen (E : Env) (k : Int) (s : Capture) : Prop :=
  s.app.now = 0 ∨
    s.outputPath = snprintf 128 (E.mpireOutputPath.getD (defaultPath k)) ∧ s.Filed E

theorem event_chosen (hk : E.mpireRank = some k) (hw : E.rank worldComm = k) (hs : s.Chosen E k)
    {ev : Event} (hb : ev.Begun s) (h : event E s ev = some s') : s'.Chosen E k := by
  subst hw
  cases ev with
  | compute f | setenv v | copy dst src =>
    cases h
    exact hs
  | call c =>
    have h : step E s c = some s' := h
    rcases hs with hnow | ⟨hp, hf⟩
    · -- nothing was called yet, so this is `MPI_Init`
      have hi : c.isInit := hb.resolve_right (by omega)
      cases c with
      | init l =>
        obtain ⟨-, rfl⟩ := initMPIre_chosen hk h
        exact .inr ⟨rfl, [], rfl, Htable.sound_nil⟩
      | _ => cases hi
    · exact .inr ⟨step_path hk hp h, step_filed hk hf h⟩

end Capture

/-! ## The job -/

namespace Job

variable {n : Nat} (Es : Fin n → Env)

/-- Each process as the library is loaded into it. -/
def boot (mem : Fin n → Mem) (reqs : Fin n → Addr → Int) (dir : Fin n → Dir) :
    Fin n → Option Capture :=
  fun i => some (Capture.boot (Es i) (mem i) (reqs i) (dir i))

/-- One event of one process. -/
def step (σ : Fin n → Option Capture) (e : Fin n × Event) : Option (Fin n → Option Capture) :=
  some (Function.update σ e.1 ((σ e.1).bind fun s => Capture.event (Es e.1) s e.2))

/-- The same job without the library. -/
def plain (π : Fin n → App) (e : Fin n × Event) : Option (Fin n → App) :=
  some (Function.update π e.1 ((π e.1).event (Es e.1).toWorld e.2))

/-- `MPI_Init` comes first, and no hook takes another process for number `k`. -/
def Spares (k : Int) (σ : Fin n → Option Capture) (e : Fin n × Event) : Prop :=
  ∀ s ∈ σ e.1, e.2.Begun s ∧ ((Es e.1).rank worldComm ≠ k → e.2.Spares (Es e.1) k s)

/-- A call of another process is handed on. -/
def HandsOn (k : Int) (σ : Fin n → Option Capture) (e : Fin n × Event) : Prop :=
  ∀ s ∈ σ e.1, (Es e.1).rank worldComm ≠ k → e.2.HandedOn (Es e.1).toWorld s.app

instance (k : Int) (σ : Fin n → Option Capture) (e : Fin n × Event) : Decidable (Spares Es k σ e) :=
  inferInstanceAs (Decidable (∀ s ∈ σ e.1, e.2.Begun s ∧
    ((Es e.1).rank worldComm ≠ k → e.2.Spares (Es e.1) k s)))

instance (k : Int) (σ : Fin n → Option Capture) (e : Fin n × Event) :
    Decidable (HandsOn Es k σ e) :=
  inferInstanceAs (Decidable (∀ s ∈ σ e.1,
    (Es e.1).rank worldComm ≠ k → e.2.HandedOn (Es e.1).toWorld s.app))

/-- After every prefix: the library of another process that is still there is untouched; only
the captured one has a path and a table. -/
def OnlyChosen (k : Int) (mem : Fin n → Mem) (reqs : Fin n → Addr → Int) (dir : Fin n → Dir)
    (es : List (Fin n × Event)) : Prop :=
  ∀ pre, pre <+: es → ∃ σ, run (step Es) (boot Es mem reqs dir) pre = some σ ∧
    ∀ i, ((Es i).rank worldComm ≠ k → ∀ s ∈ σ i, s.Untouched (dir i)) ∧
      ((Es i).rank worldComm = k → ∀ s ∈ σ i, s.app.now = 0 ∨
        s.outputPath = snprintf 128 ((Es i).mpireOutputPath.getD (defaultPath k)) ∧
          s.requestHtab ≠ none)

/-- After every prefix the other processes have done what they do without the library, and
their calls have brought the statuses that they bring then. -/
def AsPlain (k : Int) (mem : Fin n → Mem) (reqs : Fin n → Addr → Int) (dir : Fin n → Dir)
    (es : List (Fin n × Event)) : Prop :=
  (∀ pre, pre <+: es → ∃ σ π, run (step Es) (boot Es mem reqs dir) pre = some σ ∧
    run (plain Es) (fun i => (Capture.boot (Es i) (mem i) (reqs i) (dir i)).app) pre = some π ∧
    ∀ i, (Es i).rank worldComm ≠ k → ∃ s, σ i = some s ∧ s.app = π i) ∧
  ∀ i c, (i, .call c) ∈ es → (Es i).rank worldComm ≠ k → c.KeepsStatuses

variable {Es} {k : Int} {mem : Fin n → Mem} {reqs : Fin n → Addr → Int} {dir : Fin n → Dir}
  {σ : Fin n → Option Capture} {π : Fin n → App} {e : Fin n × Event}

/-- Wherever a process is, its library is idle or it is the captured one. -/
def Kept (Es : Fin n → Env) (k : Int) (dir : Fin n → Dir) (σ : Fin n → Option Capture)
    (i : Fin n) : Prop :=
  ((Es i).rank worldComm ≠ k → ∀ s ∈ σ i, s.Idle k (dir i)) ∧
    ((Es i).rank worldComm = k → ∀ s ∈ σ i, s.Chosen (Es i) k)

/-- What a job with the library and one without have to do with each other. -/
def Alike (Es : Fin n → Env) (k : Int) (dir : Fin n → Dir) (σ : Fin n → Option Capture)
    (π : Fin n → App) (i : Fin n) : Prop :=
  (Es i).rank worldComm ≠ k → ∃ s, σ i = some s ∧ s.Idle k (dir i) ∧ s.app = π i

theorem boot_idle (i : Fin n) :
    (Capture.boot (Es i) (mem i) (reqs i) (dir i)).Idle k (dir i) :=
  ⟨⟨rfl, rfl, rfl, rfl, rfl⟩, .inl rfl⟩

theorem kept_boot (i : Fin n) : Kept Es k dir (boot Es mem reqs dir) i := by
  constructor
  · rintro _ s hs
    cases hs
    exact boot_idle i
  · rintro _ s hs
    cases hs
    exact .inl rfl

/-- A step keeps every process: the one that moves, and the others. -/
theorem kept_step (hk : ∀ i, (Es i).mpireRank = some k) (h : ∀ i, Kept Es k dir σ i)
    (he : Spares Es k σ e) (i : Fin n) :
    Kept Es k dir
      (Function.update σ e.1 ((σ e.1).bind fun s => Capture.event (Es e.1) s e.2)) i := by
  by_cases hi : i = e.1
  · subst hi
    unfold Kept
    rw [Function.update_self]
    obtain ⟨hother, hchosen⟩ := h e.1
    constructor
    · intro hw s' hs'
      obtain ⟨s, hs, hev⟩ := Option.bind_eq_some_iff.1 hs'
      obtain ⟨hb, hc⟩ := he s hs
      exact Capture.event_idle (hk e.1) hw (hother hw s hs) hb (hc hw) hev
    · intro hw s' hs'
      obtain ⟨s, hs, hev⟩ := Option.bind_eq_some_iff.1 hs'
      exact Capture.event_chosen (hk e.1) hw (hchosen hw s hs) (he s hs).1 hev
  · unfold Kept
    rw [Function.update_of_ne hi]
    exact h i

theorem alike_step (hk : ∀ i, (Es i).mpireRank = some k) (h : ∀ i, Alike Es k dir σ π i)
    (he : Spares Es k σ e) (ho : HandsOn Es k σ e) (i : Fin n) :
    Alike Es k dir (Function.update σ e.1 ((σ e.1).bind fun s => Capture.event (Es e.1) s e.2))
      (Function.update π e.1 ((π e.1).event (Es e.1).toWorld e.2)) i := by
  by_cases hi : i = e.1
  · subst hi
    unfold Alike
    rw [Function.update_self, Function.update_self]
    intro hw
    obtain ⟨s, hs, hidle, happ⟩ := h e.1 hw
    obtain ⟨hb, hc⟩ := he s hs
    have ho := ho s hs hw
    obtain ⟨s', hs'⟩ := Capture.event_returns (hk e.1) hw hidle hb (hc hw) ho
    refine ⟨s', by rw [hs]; exact hs',
      Capture.event_idle (hk e.1) hw hidle hb (hc hw) hs', ?_⟩
    rw [Capture.event_app ho hs', happ]
  · unfold Alike
    rw [Function.update_of_ne hi, Function.update_of_ne hi]
    exact h i

/-- The run lemma. -/
theorem run_alike (hk : ∀ i, (Es i).mpireRank = some k) {es : List (Fin n × Event)}
    (hes : Along (step Es) (fun σ e => Spares Es k σ e ∧ HandsOn Es k σ e)
      (boot Es mem reqs dir) es) :
    ∃ σ π, run (step Es) (boot Es mem reqs dir) es = some σ ∧
      run (plain Es) (fun i => (Capture.boot (Es i) (mem i) (reqs i) (dir i)).app) es = some π ∧
      ∀ i, Alike Es k dir σ π i := by
  obtain ⟨σ, hσ, -⟩ := run_inv (I := fun _ => True) (fun _ _ _ _ => ⟨_, rfl, trivial⟩) trivial hes
  have hstep : ∀ σ π e σ', (∀ i, Alike Es k dir σ π i) → Spares Es k σ e ∧ HandsOn Es k σ e →
      step Es σ e = some σ' → True →
        ∃ π', plain Es π e = some π' ∧ ∀ i, Alike Es k dir σ' π' i := by
    intro σ π e σ' hR hok h _
    cases h
    exact ⟨_, rfl, alike_step hk hR hok.1 hok.2⟩
  obtain ⟨π, hπ, hR⟩ := run_sim (F := fun _ => True)
    (R := fun σ π => ∀ i, Alike Es k dir σ π i) (fun _ _ _ _ _ _ => trivial) hstep
    (t := fun i => (Capture.boot (Es i) (mem i) (reqs i) (dir i)).app)
    (fun i _ => ⟨_, rfl, boot_idle i, rfl⟩) hes hσ trivial
  exact ⟨σ, π, hσ, hπ, hR⟩

end Job

/-- **Only the chosen process is captured**, in every interleaving whose calls spare the
others. If their calls are also handed on, they run as without the library. -/
theorem only_chosen {n : Nat} {Es : Fin n → Env} {k : Int} (hk : ∀ i, (Es i).mpireRank = some k)
    {mem : Fin n → Mem} {reqs : Fin n → Addr → Int} {dir : Fin n → Dir}
    {es : List (Fin n × Event)} :
    (Along (Job.step Es) (Job.Spares Es k) (Job.boot Es mem reqs dir) es →
      Job.OnlyChosen Es k mem reqs dir es) ∧
    (Along (Job.step Es) (fun σ e => Job.Spares Es k σ e ∧ Job.HandsOn Es k σ e)
      (Job.boot Es mem reqs dir) es → Job.AsPlain Es k mem reqs dir es) := by
  refine ⟨fun hes => ?_, fun hes => ⟨?_, fun i c hmem hw => ?_⟩⟩
  · rintro pre ⟨post, rfl⟩
    obtain ⟨σ, hσ, hkept⟩ := run_inv (I := fun σ => ∀ i, Job.Kept Es k dir σ i)
      (fun _ _ hI he => ⟨_, rfl, Job.kept_step hk hI he⟩) Job.kept_boot hes.left
    refine ⟨σ, hσ, fun i => ⟨fun hw s hs => ((hkept i).1 hw s hs).1, fun hw s hs => ?_⟩⟩
    rcases (hkept i).2 hw s hs with hnow | ⟨hp, ht, hht, -⟩
    · exact .inl hnow
    · exact .inr ⟨hp, hht ▸ Option.some_ne_none ht⟩
  · rintro pre ⟨post, rfl⟩
    obtain ⟨σ, π, hσ, hπ, hR⟩ := Job.run_alike hk hes.left
    refine ⟨σ, π, hσ, hπ, fun i hw => ?_⟩
    obtain ⟨s, hs, -, happ⟩ := hR i hw
    exact ⟨s, hs, happ⟩
  · -- the state in which the call is made
    obtain ⟨pre, post, rfl⟩ := List.append_of_mem hmem
    obtain ⟨σ, π, hσ, -, hR⟩ := Job.run_alike hk hes.left
    obtain ⟨s, hs, -⟩ := hR i hw
    exact keepsStatuses_of_handedOn ((along_iff.1 hes pre _ post rfl σ hσ).2 s hs hw)

/-- Two processes, the first of which is captured; each is rank 0 of its own
`MPI_COMM_SELF`. -/
def twoProcesses (i : Fin 2) : Env :=
  { Env.plain (fun comm => if comm = selfComm then 0 else i.val)
      (fun comm => if comm = selfComm then 1 else 2) 0 with
    mpireActiveDump := some 1 }

/-- Both receive and take part in a broadcast, the second also on its own communicator. -/
theorem only_chosen_worldComm :
    let es : List (Fin 2 × Event) :=
      [(1, .call (.init .fortran)), (0, .call (.init .c)),
        (1, .call (.irecv .c ⟨0, 2, .byte⟩ worldComm 100)),
        (0, .call (.irecv .fortran ⟨0, 2, .byte⟩ worldComm 100)), (0, .call (.wait .fortran 100)),
        (1, .call (.wait .c 100)), (1, .call (.waitall .fortran 1 100)),
        (1, .call (.bcast .c ⟨4, 1, .byte⟩ 0 worldComm)),
        (0, .call (.bcast .c ⟨4, 1, .byte⟩ 0 worldComm)),
        (1, .call (.bcast .c ⟨4, 1, .byte⟩ 0 selfComm)), (1, .call (.finalize .c))]
    Job.OnlyChosen twoProcesses 0 (fun _ _ => 0) (fun _ _ => 0)
        (fun _ => ⟨none, fun _ => none⟩) es ∧
      Job.AsPlain twoProcesses 0 (fun _ _ => 0) (fun _ _ => 0)
        (fun _ => ⟨none, fun _ => none⟩) es := by
  intro es
  have h := @only_chosen 2 twoProcesses 0 (fun _ => rfl) (fun _ _ => 0) (fun _ _ => 0)
    (fun _ => ⟨none, fun _ => none⟩) es
  exact ⟨h.1 (by decide), h.2 (by decide)⟩

/-- The second process receives from itself, and writes a record. -/
theorem chosen_onSelf :
    ¬ Job.OnlyChosen twoProcesses 0 (fun _ _ => 0) (fun _ _ => 0)
      (fun _ => ⟨none, fun _ => none⟩)
      [(1, .call (.init .c)), (1, .call (.recv .c ⟨0, 2, .byte⟩ selfComm))] := by
  intro h
  obtain ⟨σ, hσ, hi⟩ := h _ (List.prefix_refl _)
  have hone : (run (Job.step twoProcesses) (Job.boot twoProcesses (fun _ _ => 0) (fun _ _ => 0)
      (fun _ => ⟨none, fun _ => none⟩)) [(1, .call (.init .c)),
        (1, .call (.recv .c ⟨0, 2, .byte⟩ selfComm))]).bind
          (fun σ => (σ 1).map Capture.cptWrite) = some 1 := by
    decide
  rw [hσ, Option.bind_some] at hone
  obtain ⟨s, hs, hcpt⟩ := Option.map_eq_some_iff.1 hone
  have hu := (hi 1).1 (by decide) s hs
  rw [hu.cptWrite] at hcpt
  exact absurd hcpt (by decide)

end MPIre

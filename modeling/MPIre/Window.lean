import MPIre.Chronicle
/-
# Replaying a window of a captured run

`MPIRE_ACTIVE_DUMP` is zero, is set for a region of the run and then zero again. The
records of the region are all there is, so the region can be replayed alone, from a
freshly initialised library and any memory (`windowed`): each call of it delivers the
bytes it delivered under capture.

The two tables differ. The capture also knows the receives posted before the region,
the replay only those posted since `t`, the time the region began; they agree on what
is waited for in the region because it was posted there (`Call.Since`). The total of
an `MPI_Alltoall` has to fit an `int` (`window_overflow`).
-/
namespace MPIre
open Gather Run

/-- The calls of a window: no `MPI_Alltoallv`, and neither the C `MPI_Waitall` nor the
Fortran `MPI_REDUCE`. -/
def Call.windowed : Call → Bool
  | .alltoallv .. => false
  | c => c.captured && c.replayed

def Event.windowed : Event → Bool
  | .call c => c.windowed
  | .compute _ => true
  | .setenv _ | .copy .. => false

/-- No request variable is posted on while pending, or waited on for another. -/
def Event.Owned (W : World) (p : App) : Event → Prop
  | .call c => c.Disciplined W p
  | _ => True

/-- What is completed was posted at time `t` or later, and totals fit an `int`. -/
def Event.Within (W : World) (t : Nat) (p : App) : Event → Prop
  | .call c => c.Since W t p ∧ c.Fits W
  | _ => True

instance (W : World) (p : App) : ∀ ev : Event, Decidable (ev.Owned W p)
  | .call c => inferInstanceAs (Decidable (c.Disciplined W p))
  | .compute _ | .setenv _ | .copy .. => isTrue trivial

instance (W : World) (t : Nat) (p : App) : ∀ ev : Event, Decidable (ev.Within W t p)
  | .call c => inferInstanceAs (Decidable (c.Since W t p ∧ c.Fits W))
  | .compute _ | .setenv _ | .copy .. => isTrue trivial

/-- The run with the flag at `v` in the region gets through; replayed alone, every call
of the region loads what it received. -/
def Windowed (E E' : Env) (mem : Mem) (reqs : Addr → Int) (dir : Dir)
    (pre region post : List Event) (v : Int) : Prop :=
  ∃ s₁ s₃, Capture.exec E mem reqs dir pre = some s₁ ∧
    run (Capture.event E) s₁ (.setenv v :: (region ++ .setenv 0 :: post)) = some s₃ ∧
    ∀ mem', ∃ r₀, Replay.mpiInit E' (Replay.boot mem' s₃.dir) = some r₀ ∧
      (∃ r₂, run (Replay.event E') r₀ region = some r₂) ∧
      ∀ xs c ys, region = xs ++ .call c :: ys → ∃ s s' r r',
        run (Capture.event E) s₁ (.setenv v :: xs) = some s ∧ Capture.step E s c = some s' ∧
        run (Replay.event E') r₀ xs = some r ∧ Replay.step E' r c = some r' ∧
        r'.cptRead = s'.cptWrite ∧
        ∀ a ∈ (inbound E.toWorld s.app c).flatten, r'.mem a = s'.app.mem a

variable {E E' : Env} {s : Capture} {r : Replay} {ht : Htable} {ev : Event}

theorem windowed_call {c : Call} (h : c.windowed) (W : World) :
    c.captured ∧ c.replayed ∧ c.Packed W := by
  unfold Call.windowed at h
  split at h
  · cases h
  · rename_i hv
    obtain ⟨hc, hc'⟩ := Bool.and_eq_true_iff.1 h
    refine ⟨hc, hc', ?_⟩
    cases c with
    | alltoallv l recvbuf rc rd t comm => exact absurd rfl (hv l recvbuf rc rd t comm)
    | _ => trivial

/-! ## Before and after the region -/

/-- With the flag at zero nothing is written, whatever else a call does. -/
theorem Capture.event_quiet (hE : E.Captures) (hs : s.Live E ht) (h0 : s.activeDump = some 0)
    (hw : ev.windowed) (ho : ev.Owned E.toWorld s.app) :
    ∃ s' ht', Capture.event E s ev = some s' ∧ s'.Live E ht' ∧ s'.activeDump = some 0 ∧
      s'.dir = s.dir ∧ s'.cptWrite = s.cptWrite := by
  cases ev with
  | setenv v => cases hw
  | copy dst src => cases hw
  | compute f => exact ⟨_, ht, rfl, ⟨hs.ready.set_app _, hs.tracked, hs.timely⟩, h0, rfl, rfl⟩
  | call c =>
    obtain ⟨hc, -, -⟩ := windowed_call hw E.toWorld
    have hstep := Capture.step_eq hs.ready hE.files hc (unregistered_of_tracked hs.tracked ho)
    rw [Capture.kept_of_off h0, Capture.logged_nil] at hstep
    have hok : (Event.call c).Disciplined E.toWorld s.app := ⟨hc, ho⟩
    obtain ⟨s', ht', hs', hlive⟩ := Capture.event_live hE hs hok
    have hs' : Capture.step E s c = some s' := hs'
    obtain rfl := Option.some.inj (hstep.symm.trans hs')
    exact ⟨_, ht', hs', hlive, h0, rfl, rfl⟩

/-- A quiet stretch of the run leaves the directory and the counter alone. -/
theorem Capture.run_quiet (hE : E.Captures) {evs : List Event} (hs : s.Live E ht)
    (h0 : s.activeDump = some 0) (hw : ∀ ev ∈ evs, ev.windowed)
    (ho : Along (Capture.event E) (fun s ev => ev.Owned E.toWorld s.app) s evs) :
    ∃ s' ht', run (Capture.event E) s evs = some s' ∧ s'.Live E ht' ∧
      s'.dir = s.dir ∧ s'.cptWrite = s.cptWrite := by
  have hok := along_and_mem hw ho
  obtain ⟨s', hs', ⟨ht', hlive⟩, -, hd, hc⟩ := run_inv
    (I := fun s' => (∃ ht', s'.Live E ht') ∧ s'.activeDump = some 0 ∧ s'.dir = s.dir ∧
      s'.cptWrite = s.cptWrite)
    (fun m ev hm hok => by
      obtain ⟨⟨ht', hlive⟩, h0, hd, hc⟩ := hm
      obtain ⟨m', ht'', hm', hlive', h0', hd', hc'⟩ :=
        Capture.event_quiet hE hlive h0 hok.1 hok.2
      exact ⟨m', hm', ⟨ht'', hlive'⟩, h0', hd'.trans hd, hc'.trans hc⟩)
    ⟨⟨ht, hs⟩, h0, rfl, rfl⟩ hok
  exact ⟨s', ht', hs', hlive, hd, hc⟩

/-! ## In the region -/

/-- One event of the region goes through and keeps the flag. -/
theorem Capture.event_active (hE : E.Captures) (hs : s.Live E ht) (hw : ev.windowed)
    (ho : ev.Owned E.toWorld s.app) :
    ∃ s' ht', Capture.event E s ev = some s' ∧ s'.Live E ht' ∧ s'.activeDump = s.activeDump := by
  cases ev with
  | setenv v => cases hw
  | copy dst src => cases hw
  | compute f => exact ⟨_, ht, rfl, ⟨hs.ready.set_app _, hs.tracked, hs.timely⟩, rfl⟩
  | call c =>
    obtain ⟨hc, -, -⟩ := windowed_call hw E.toWorld
    obtain ⟨s', hs', hr, hT, happ, hact⟩ := Capture.step_orderly hs.ready hE hs.tracked hc ho
    exact ⟨s', _, hs', ⟨hr, hT, happ ▸ hs.timely.step hE.comm c⟩, hact⟩

theorem Capture.event_back (hE : E.Captures) (hs : s.Live E ht) (hw : ev.windowed)
    (ho : ev.Owned E.toWorld s.app) {s' : Capture} (h : Capture.event E s ev = some s')
    {record : Nat → Option (List Byte)} (hl : s'.Left record) : s.Left record := by
  cases ev with
  | setenv v => cases hw
  | copy dst src => cases hw
  | compute f =>
    cases h
    exact hl
  | call c =>
    exact Capture.left_step hs.ready hE.files (windowed_call hw E.toWorld).1
      (unregistered_of_tracked hs.tracked ho) h hl

/-- One event of the region under both libraries. -/
theorem event_together {t : Nat} (hE : E.Captures) (hF' : E'.FilesOk)
    (h : Together E E' t s ht r) (hw : ev.windowed) (ho : ev.Owned E.toWorld s.app)
    (hin : ev.Within E.toWorld t s.app) {s' : Capture} (hs' : Capture.event E s ev = some s')
    (hl : s'.Left r.dir.record) :
    ∃ r' ht', Replay.event E' r ev = some r' ∧ Together E E' t s' ht' r' ∧ r'.dir = r.dir := by
  cases ev with
  | setenv v => cases hw
  | copy dst src => cases hw
  | compute f =>
    cases hs'
    exact ⟨_, ht, rfl, ⟨h.capture.set_app _, ⟨h.replay.rank, h.replay.size, h.replay.sound⟩,
      h.active, h.read, h.begun, h.tracked, h.tracked'⟩, rfl⟩
  | call c =>
    obtain ⟨hc, hc', hp⟩ := windowed_call hw E.toWorld
    obtain ⟨r', hr', htog, hd, -⟩ :=
      lockstep_tracked hE hF' h hc hc' ⟨ho, hp, hin.2⟩ hin.1 hs' hl
    exact ⟨r', _, hr', htog, hd⟩

/-- An event of the region, at a state the library has reached. -/
structure InWindow (E : Env) (t : Nat) (s : Capture) (ev : Event) : Prop where
  live : ∃ ht, s.Live E ht
  windowed : ev.windowed = true
  owned : ev.Owned E.toWorld s.app
  within : ev.Within E.toWorld t s.app

/-- The log at the end of a stretch contains the log at its beginning. -/
theorem window_left (hE : E.Captures) {t : Nat} {evs : List Event} {s' : Capture}
    (hok : Along (Capture.event E) (InWindow E t) s evs)
    (hrun : run (Capture.event E) s evs = some s') {record : Nat → Option (List Byte)}
    (hl : s'.Left record) : s.Left record :=
  run_back (F := fun s => s.Left record) (fun _ _ _ hok h hl => by
    obtain ⟨ht, hs⟩ := hok.live
    exact Capture.event_back hE hs hok.windowed hok.owned h hl) hok hrun hl

/-- The run lemma: a stretch of the region under both libraries. -/
theorem window_together (hE : E.Captures) (hF' : E'.FilesOk) {t : Nat} {evs : List Event}
    {s' : Capture} (h : Together E E' t s ht r)
    (hok : Along (Capture.event E) (InWindow E t) s evs)
    (hrun : run (Capture.event E) s evs = some s') (hl : s'.Left r.dir.record) :
    ∃ r' ht', run (Replay.event E') r evs = some r' ∧ Together E E' t s' ht' r' ∧
      r'.dir = r.dir := by
  obtain ⟨r', hr', ⟨ht', htog⟩, hd⟩ := run_sim (F := fun s => s.Left r.dir.record)
    (R := fun s r' => (∃ ht, Together E E' t s ht r') ∧ r'.dir = r.dir)
    (fun _ _ _ hok h hl => by
      obtain ⟨ht, hs⟩ := hok.live
      exact Capture.event_back hE hs hok.windowed hok.owned h hl)
    (fun m r₁ ev m' hR hok hm' hl => by
      obtain ⟨⟨ht, hto⟩, hrd⟩ := hR
      obtain ⟨r₂, ht', hr₂, hto', hrd'⟩ := event_together hE hF' hto hok.windowed hok.owned
        hok.within hm' (by rw [hrd]; exact hl)
      exact ⟨r₂, hr₂, ⟨ht', hto'⟩, hrd'.trans hrd⟩)
    ⟨⟨ht, h⟩, rfl⟩ hok hrun hl
  exact ⟨r', ht', hr', htog, hd⟩

/-- Each call of a region under both libraries: the same counter, the same bytes. -/
theorem window_call (hE : E.Captures) (hF' : E'.FilesOk) {t : Nat} {xs ys : List Event} {c : Call}
    {s₂ : Capture} (h : Together E E' t s ht r)
    (hok : Along (Capture.event E) (InWindow E t) s (xs ++ .call c :: ys))
    (hrun : run (Capture.event E) s (xs ++ .call c :: ys) = some s₂) (hl : s₂.Left r.dir.record) :
    ∃ m m' n n', run (Capture.event E) s xs = some m ∧ Capture.step E m c = some m' ∧
      run (Replay.event E') r xs = some n ∧ Replay.step E' n c = some n' ∧
      n'.cptRead = m'.cptWrite ∧
      ∀ a ∈ (inbound E.toWorld m.app c).flatten, n'.mem a = m'.app.mem a := by
  obtain ⟨m, hm, hrest⟩ := run_split hrun
  obtain ⟨m', hm', hys⟩ := Option.bind_eq_some_iff.1 hrest
  have hokc := hok.append hm
  have hleft' := window_left hE (hokc.cons hm') hys hl
  obtain ⟨⟨htm, hlive⟩, hw, ho, hin⟩ := hokc.1
  have hleft := Capture.event_back hE hlive hw ho hm' hleft'
  obtain ⟨n, ht', hn, htog, hd⟩ := window_together hE hF' h hok.left hm hleft
  obtain ⟨hc, hc', hp⟩ := windowed_call hw E.toWorld
  obtain ⟨n', hn', htog', -, hmem⟩ := lockstep_tracked hE hF' htog hc hc' ⟨ho, hp, hin.2⟩ hin.1
    hm' (by rw [hd]; exact hleft')
  refine ⟨m, m', n, n', hm, hm', hn, hn', htog'.read, fun a ha => ?_⟩
  rw [hmem, overlay_mem ha]

/-- **A window replays alone.** -/
theorem windowed (hE : E.Captures) (hE' : E'.Replays E) (h0 : E.mpireActiveDump = some 0)
    {mem : Mem} {reqs : Addr → Int} {dir : Dir} {pre region post : List Event} {v : Int}
    (hv : v ≠ 0) (hw : ∀ ev ∈ pre ++ region ++ post, ev.windowed)
    (ho : Along (Capture.event E) (fun s ev => ev.Owned E.toWorld s.app)
      (Capture.start E mem reqs dir) (pre ++ .setenv v :: (region ++ .setenv 0 :: post)))
    (hin : ∀ s₁ ∈ Capture.exec E mem reqs dir pre,
      Along (Capture.event E) (fun s ev => ev.Within E.toWorld s₁.app.now s.app) s₁
        (.setenv v :: region)) :
    Windowed E E' mem reqs dir pre region post v := by
  have hpre : ∀ ev ∈ pre, ev.windowed := fun ev h => hw ev (by simp [h])
  have hreg : ∀ ev ∈ region, ev.windowed := fun ev h => hw ev (by simp [h])
  have hpost : ∀ ev ∈ post, ev.windowed := fun ev h => hw ev (by simp [h])
  have hact : (Capture.start E mem reqs dir).activeDump = some 0 := by
    show some (E.mpireActiveDump.getD 1) = some 0
    rw [h0]
    rfl
  -- before the region: nothing is written
  obtain ⟨s₁, ht₁, hs₁, hlive₁, -, hcpt₁⟩ :=
    Capture.run_quiet hE (Capture.start_live mem reqs dir) hact hpre ho.left
  have hexec : Capture.exec E mem reqs dir pre = some s₁ := (Capture.exec_eq hE pre).trans hs₁
  have hlive := hlive₁.setenv v
  have ho₁ : Along (Capture.event E) (fun s ev => ev.Owned E.toWorld s.app)
      { s₁ with activeDump := some v } (region ++ .setenv 0 :: post) := (ho.append hs₁).cons rfl
  -- the region
  have hstep : ∀ s ev, (∃ ht, s.Live E ht) → ev.windowed = true ∧ ev.Owned E.toWorld s.app →
      ∃ s', Capture.event E s ev = some s' ∧ ∃ ht, s'.Live E ht := by
    rintro s ev ⟨_, hs⟩ ⟨hwe, hoe⟩
    obtain ⟨s', ht', hs', hl, -⟩ := Capture.event_active hE hs hwe hoe
    exact ⟨s', hs', ht', hl⟩
  have hok := along_and_mem hreg ho₁.left
  obtain ⟨s₂, hs₂, ht₂, hlive₂⟩ := run_inv hstep ⟨ht₁, hlive⟩ hok
  have hokw : Along (Capture.event E) (InWindow E s₁.app.now) { s₁ with activeDump := some v }
      region := by
    have hboth := hok.and ((hin s₁ hexec).cons rfl)
    refine (hboth.and_inv (fun s ev s' hs hoe hs' => ?_) ⟨ht₁, hlive⟩).mono
      fun s ev h => ⟨h.1, h.2.1.1, h.2.1.2, h.2.2⟩
    obtain ⟨s'', hs'', hl⟩ := hstep s ev hs hoe.1
    obtain rfl := Option.some.inj (hs''.symm.trans hs')
    exact hl
  -- after the region: nothing is written
  obtain ⟨s₃, ht₃, hs₃, hlive₃, hdir₃, -⟩ :=
    Capture.run_quiet hE (hlive₂.setenv 0) rfl hpost ((ho₁.append hs₂).cons rfl)
  have hleft : s₂.Left s₃.dir.record := fun i _ => congrFun (congrArg Dir.record hdir₃) i
  refine ⟨s₁, s₃, hexec, ?_, fun mem' => ?_⟩
  · show run (Capture.event E) { s₁ with activeDump := some v } _ = some s₃
    rw [run_append, hs₂]
    exact hs₃
  have htog : Together E E' s₁.app.now { s₁ with activeDump := some v } ht₁
      (Replay.start E' E mem' s₃.dir) :=
    ⟨hlive.ready, Replay.start_ready mem' _, fun h => hv (Option.some.inj h), hcpt₁.symm,
      Nat.le_refl _, hlive.tracked, tracked_nil hlive₁.timely⟩
  refine ⟨_, Replay.mpiInit_boot hE hE' mem' hlive₃.ready.nprocs, ?_, fun xs c ys hsplit => ?_⟩
  · obtain ⟨r₂, -, hr₂, -⟩ := window_together hE hE'.files htog hokw hs₂ hleft
    exact ⟨r₂, hr₂⟩
  · subst hsplit
    have h := window_call hE hE'.files htog hokw hs₂ hleft
    exact h

/-- Rank 0 of four, started with `MPIRE_ACTIVE_DUMP=0`. -/
def quietProcesses : Env := { fourProcesses with mpireActiveDump := some 0 }

theorem quietProcesses_captures : quietProcesses.Captures := ⟨rfl, rfl, fun _ => rfl, fun _ => rfl⟩

theorem quietProcesses_replays : quietProcesses.Replays quietProcesses := ⟨rfl, rfl, fun _ => rfl⟩

/-- Receives that straddle either end of the region, and one inside it. -/
theorem windowed_straddling :
    Windowed quietProcesses quietProcesses (fun _ => 0) (fun _ => 0) ⟨none, fun _ => none⟩
      [.call (.irecv .c ⟨0, 2, .byte⟩ worldComm 100),
        .call (.irecv .fortran ⟨2, 2, .byte⟩ worldComm 108), .call (.wait .fortran 108)]
      [.call (.irecv .c ⟨4, 2, .byte⟩ worldComm 116), .call (.isend .c 132),
        .call (.irecv .c ⟨6, 2, .byte⟩ worldComm 124), .call (.bcast .c ⟨8, 4, .byte⟩ 1 worldComm),
        .call (.wait .c 116), .call (.wait .c 132)]
      [.call (.wait .c 124), .call (.wait .c 100)] 1 :=
  windowed quietProcesses_captures quietProcesses_replays rfl (by decide) (by decide) (by decide)
    (by decide)

/-- A region of one `MPI_Alltoall` of 2^30 bytes from each process. -/
theorem window_overflow :
    ¬ Windowed quietProcesses quietProcesses (fun _ => 0) (fun _ => 0) ⟨none, fun _ => none⟩
      [] [.call (.alltoall .c ⟨0, 1073741824, .byte⟩ worldComm)] [] 1 := by
  rintro ⟨s₁, s₃, hs₁, hrun, hw⟩
  obtain ⟨r₀, hr₀, -, hcall⟩ := hw fun _ => 0
  obtain ⟨s, s', r, r', hs, hs', hr, hr', -, hmem⟩ := hcall [] _ [] rfl
  cases hs₁.symm.trans (Capture.exec_eq quietProcesses_captures [])
  cases hs
  cases hr
  -- the captured call fills its buffer with what arrives
  have hlive : (Capture.start quietProcesses (fun _ => 0) (fun _ => 0) ⟨none, fun _ => none⟩).Live
      quietProcesses [] := Capture.start_live _ _ _
  have hstep := Capture.step_eq (hlive.setenv 1).ready quietProcesses_captures.files
    (c := .alltoall .c ⟨0, 1073741824, .byte⟩ worldComm) rfl trivial
  have hone : s'.app.mem 0 = 1 := by
    rw [← Option.some.inj (hstep.symm.trans hs')]
    exact alltoall_fills (l := .c) (b := ⟨0, 1073741824, .byte⟩) rfl (by decide) (by decide)
  -- the replayed one leaves it as it was
  obtain ⟨ht₃, hready₃⟩ := Capture.run_ready rfl hlive.ready hrun
  have hi := Replay.mpiInit_boot quietProcesses_captures quietProcesses_replays (fun _ => 0)
    hready₃.nprocs
  obtain rfl := Option.some.inj (hi.symm.trans hr₀)
  have hzero : r'.mem = fun _ => 0 := by
    refine Replay.alltoall_mem ?_ hr'
    show cInt (1073741824 * 4) ≤ 0
    decide
  have hin : (0 : Int) ∈ Buf.cells ⟨0, 1073741824 * 4, .byte⟩ :=
    buf_mem_cells (b := ⟨0, 1073741824 * 4, .byte⟩) (by decide) (by decide)
  have h01 := hmem 0 (List.mem_flatten.2 ⟨_, List.mem_singleton.2 rfl, hin⟩)
  rw [hone, hzero] at h01
  exact absurd h01 (by decide)

end MPIre

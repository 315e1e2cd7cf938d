import MPIre.ReplayRun
import MPIre.Window
/-
# Several regions, replayed any number of times

A run sets `MPIRE_ACTIVE_DUMP` for one region after another, and a replay calls `MPI_Init`
again to start over. The log is that of all the regions, so the regions are replayed in their
order, as often as one likes (`regions_replay`).

No receive may be pending across the end of a region: the capture would forget it in the
quiet stretch that follows, the replay would keep it, and exit when its variable is posted on
again. `Sealed` asks this of every region. Then both libraries are between two regions as they
were before the first one (`Between`), but for the number of records.
-/
namespace MPIre
open Gather Run

/-- A stretch of the run with dumping off, then a region with the flag at `flag`. -/
structure Stretch where
  quiet : List Event
  flag : Int
  region : List Event

def Stretch.events (w : Stretch) : List Event :=
  w.quiet ++ .setenv w.flag :: (w.region ++ [.setenv 0])

/-- The regions `m` times over, each time from `MPI_Init`. -/
def rounds (ws : List Stretch) (l : Lang) : Nat → List Event
  | 0 => []
  | m + 1 => rounds ws l m ++ (ws.flatMap Stretch.region ++ [.call (.init l)])

/-- No pending receive was posted at time `t` or later. -/
def App.Drained (t : Nat) (p : App) : Prop :=
  ∀ x ∈ p.ops.entries, x.2.recv ≠ none → x.2.time < t

/-- What is completed in a region was posted in it, and the other way round. -/
def Sealed (E : Env) : Capture → List Stretch → Prop
  | _, [] => True
  | s, w :: ws => ∀ s₁ ∈ run (Capture.event E) s w.quiet,
      Along (Capture.event E) (fun s ev => ev.Within E.toWorld s₁.app.now s.app) s₁
        (.setenv w.flag :: w.region) ∧
      ∀ s₂ ∈ run (Capture.event E) s₁ (.setenv w.flag :: w.region),
        s₂.app.Drained s₁.app.now ∧ Sealed E { s₂ with activeDump := some 0 } ws

instance (t : Nat) (p : App) : Decidable (p.Drained t) :=
  inferInstanceAs (Decidable (∀ x ∈ p.ops.entries, x.2.recv ≠ none → x.2.time < t))

instance decidableSealed (E : Env) : ∀ s ws, Decidable (Sealed E s ws)
  | _, [] => isTrue trivial
  | s, w :: ws =>
    have : ∀ s, Decidable (Sealed E s ws) := fun s => decidableSealed E s ws
    inferInstanceAs (Decidable (∀ s₁ ∈ run (Capture.event E) s w.quiet,
      Along (Capture.event E) (fun s ev => ev.Within E.toWorld s₁.app.now s.app) s₁
        (.setenv w.flag :: w.region) ∧
      ∀ s₂ ∈ run (Capture.event E) s₁ (.setenv w.flag :: w.region),
        s₂.app.Drained s₁.app.now ∧ Sealed E { s₂ with activeDump := some 0 } ws))

/-- The run gets through; after any number of rounds, each call of each region loads what it
received. -/
def Replayable (E E' : Env) (mem : Mem) (reqs : Addr → Int) (dir : Dir) (ws : List Stretch)
    (post : List Event) : Prop :=
  ∃ s₃, Capture.exec E mem reqs dir (ws.flatMap Stretch.events ++ post) = some s₃ ∧
    ∀ mem' l, ∃ r₀, Replay.mpiInit E' (Replay.boot mem' s₃.dir) = some r₀ ∧
      ∀ m, (∃ r₂, run (Replay.event E') r₀ (rounds ws l m) = some r₂) ∧
        ∀ us w vs xs c ys, ws = us ++ w :: vs → w.region = xs ++ .call c :: ys →
          ∃ s s' r r',
            Capture.exec E mem reqs dir
              (us.flatMap Stretch.events ++ (w.quiet ++ .setenv w.flag :: xs)) = some s ∧
            Capture.step E s c = some s' ∧
            run (Replay.event E') r₀ (rounds ws l m ++ (us.flatMap Stretch.region ++ xs)) =
              some r ∧
            Replay.step E' r c = some r' ∧ r'.cptRead = s'.cptWrite ∧
            ∀ a ∈ (inbound E.toWorld s.app c).flatten, r'.mem a = s'.app.mem a

variable {E E' : Env} {s s' : Capture} {r r' : Replay} {ht : Htable} {w : Stretch}
  {ws : List Stretch}

/-- Both libraries between two regions. -/
structure Between (E E' : Env) (s : Capture) (r : Replay) : Prop where
  live : ∃ ht, s.Live E ht
  quiet : s.activeDump = some 0
  ready : r.Ready E' E.toWorld
  read : r.cptRead = s.cptWrite
  empty : r.requestHtab = []
  initialized : r.initialized = true

/-- The events of a stretch that the theorem is about. -/
structure Stretch.Windowed (w : Stretch) : Prop where
  quiet : ∀ ev ∈ w.quiet, ev.windowed
  flag : w.flag ≠ 0
  region : ∀ ev ∈ w.region, ev.windowed

instance (w : Stretch) : Decidable w.Windowed :=
  decidable_of_iff ((∀ ev ∈ w.quiet, ev.windowed) ∧ w.flag ≠ 0 ∧ ∀ ev ∈ w.region, ev.windowed)
    ⟨fun h => ⟨h.1, h.2.1, h.2.2⟩, fun h => ⟨h.quiet, h.flag, h.region⟩⟩

/-! ## The table at either end of a region -/

/-- A table that stands for nothing is empty. -/
theorem Tracked.eq_nil {hash : Addr → UInt32} {t : Nat} {p : App}
    (hT : Tracked hash t p.ops ht) (hd : p.Drained t) : ht = [] := by
  by_contra hne
  obtain ⟨a, ha⟩ := exists_view hT.sound hne
  obtain ⟨b, hb⟩ := Option.ne_none_iff_exists'.1 ha
  obtain ⟨h, op, hl, hr, -, ht⟩ := (hT.view a b).1 hb
  exact absurd (hd ⟨h, op⟩ (mem_entries.2 hl) (by simp [hr])) (Nat.not_lt.2 ht)

theorem Replay.event_initialized {ev : Event} (hi : r.initialized = true)
    (h : Replay.event E r ev = some r') : r'.initialized = true := by
  cases ev with
  | compute f | setenv v | copy dst src =>
    cases h
    exact hi
  | call c =>
    refine Replay.hook_keeps (E := E) (P := fun r => r.initialized = true) ?_ ?_ ?_
      (h := .call c) hi h
    · exact fun _ _ _ _ _ _ hi => hi
    · intro s b s' hi hb
      obtain ⟨-, rfl⟩ := Replay.readInFile_some hb
      exact hi
    · intro s s' hi hinit
      rcases Replay.mpiInit_some hinit with ⟨-, rfl⟩ | ⟨-, _, _, -, -, rfl⟩
      · exact hi
      · rfl

theorem Replay.run_initialized {evs : List Event} (hi : r.initialized = true)
    (h : run (Replay.event E) r evs = some r') : r'.initialized = true :=
  run_safe (I := fun r => r.initialized = true)
    (fun _ _ _ hi _ h => Replay.event_initialized hi h) hi (along_true r evs) h

/-- Both libraries when a region begins: the replay knows of no receive, and none was posted
since. -/
theorem Between.together (hb : Between E E' s r) {s₁ : Capture} (hs : s₁.Live E ht)
    (hc : s₁.cptWrite = s.cptWrite) {v : Int} (hv : v ≠ 0) :
    Together E E' s₁.app.now { s₁ with activeDump := some v } ht r :=
  ⟨(hs.setenv v).ready, hb.ready, fun h => hv (Option.some.inj h), hb.read.trans hc.symm,
    Nat.le_refl _, hs.tracked, hb.empty ▸ tracked_nil hs.timely⟩

/-- And when it ends with nothing pending. -/
theorem Together.between {t : Nat} (h : Together E E' t s ht r) (hs : s.app.Timely)
    (hd : s.app.Drained t) (hi : r.initialized = true) :
    Between E E' { s with activeDump := some 0 } r where
  live := ⟨ht, Capture.Live.setenv ⟨h.capture, h.tracked, hs⟩ 0⟩
  quiet := rfl
  ready := h.replay
  read := h.read
  empty := h.tracked'.eq_nil hd
  initialized := hi

/-! ## The captured run -/

theorem Capture.run_live (hE : E.Captures) (hs : s.Live E ht) {evs : List Event}
    (hd : Along (Capture.event E) (fun s ev => ev.Disciplined E.toWorld s.app) s evs) :
    ∃ s', run (Capture.event E) s evs = some s' ∧ ∃ ht, s'.Live E ht :=
  run_inv (fun s ev ⟨_, hs⟩ ho => by
    obtain ⟨s', ht', hs', hl⟩ := Capture.event_live hE hs ho
    exact ⟨s', hs', ht', hl⟩) ⟨ht, hs⟩ hd

/-- What a run leaves behind contains what was there before. -/
theorem Capture.run_left (hE : E.Captures) (hs : s.Live E ht) {evs : List Event}
    (hd : Along (Capture.event E) (fun s ev => ev.Disciplined E.toWorld s.app) s evs)
    (hrun : run (Capture.event E) s evs = some s') {record : Nat → Option (List Byte)}
    (hl : s'.Left record) : s.Left record := by
  have hlive := hd.and_inv (I := fun s => ∃ ht, s.Live E ht) (fun s ev s' ⟨_, hs⟩ ho h => by
    obtain ⟨s₁, ht₁, hs₁, hl⟩ := Capture.event_live hE hs ho
    cases h.symm.trans hs₁
    exact ⟨ht₁, hl⟩) ⟨ht, hs⟩
  refine run_back (F := fun s => s.Left record) (fun s ev s' ho h hl => ?_) hlive hrun hl
  obtain ⟨⟨_, hs⟩, ho⟩ := ho
  cases ev with
  | compute f | setenv v | copy dst src =>
    cases h
    exact hl
  | call c =>
    exact Capture.left_step hs.ready hE.files ho.1 (unregistered_of_tracked hs.tracked ho.2) h hl

theorem disciplined_of_owned {ev : Event} {W : World} {p : App}
    (hw : ev.windowed = true ∨ ∃ v, ev = .setenv v) (ho : ev.Owned W p) : ev.Disciplined W p := by
  cases ev with
  | call c =>
    rcases hw with hw | ⟨v, hv⟩
    · exact ⟨(windowed_call hw W).1, ho⟩
    · cases hv
  | _ => trivial

theorem Stretch.Windowed.events (hw : w.Windowed) :
    ∀ ev ∈ w.events, ev.windowed = true ∨ ∃ v, ev = .setenv v := by
  intro ev hev
  rcases List.mem_append.1 hev with h | h
  · exact .inl (hw.quiet ev h)
  rcases List.mem_cons.1 h with rfl | h
  · exact .inr ⟨_, rfl⟩
  rcases List.mem_append.1 h with h | h
  · exact .inl (hw.region ev h)
  · exact .inr ⟨0, List.mem_singleton.1 h⟩

/-- A run of stretches that owns its requests is disciplined. -/
theorem stretches_disciplined {post : List Event} (hw : ∀ w ∈ ws, w.Windowed)
    (hpost : ∀ ev ∈ post, ev.windowed)
    (ho : Along (Capture.event E) (fun s ev => ev.Owned E.toWorld s.app) s
      (ws.flatMap Stretch.events ++ post)) :
    Along (Capture.event E) (fun s ev => ev.Disciplined E.toWorld s.app) s
      (ws.flatMap Stretch.events ++ post) := by
  refine (along_and_mem (fun ev hev => ?_) ho).mono fun s ev h => disciplined_of_owned h.1 h.2
  rcases List.mem_append.1 hev with h | h
  · obtain ⟨w, hmem, h⟩ := List.mem_flatMap.1 h
    exact (hw w hmem).events ev h
  · exact .inl (hpost ev h)

/-- The stages of a stretch. -/
theorem Stretch.run_events (h : run (Capture.event E) s w.events = some s') :
    ∃ s₁ s₂, run (Capture.event E) s w.quiet = some s₁ ∧
      run (Capture.event E) { s₁ with activeDump := some w.flag } w.region = some s₂ ∧
      s' = { s₂ with activeDump := some 0 } := by
  obtain ⟨s₁, hs₁, h⟩ := run_split h
  obtain ⟨s₂, hs₂, h⟩ := run_split (s := { s₁ with activeDump := some w.flag }) h
  cases h
  exact ⟨s₁, s₂, hs₁, hs₂, rfl⟩

/-- The region of a stretch, at the states it is run through. -/
theorem region_inWindow (hE : E.Captures) {t : Nat} {evs : List Event} (hs : s.Live E ht)
    (hw : ∀ ev ∈ evs, ev.windowed)
    (ho : Along (Capture.event E) (fun s ev => ev.Owned E.toWorld s.app) s evs)
    (hin : Along (Capture.event E) (fun s ev => ev.Within E.toWorld t s.app) s evs) :
    Along (Capture.event E) (InWindow E t) s evs := by
  have hok := (along_and_mem hw (ho.and hin)).and_inv (I := fun s => ∃ ht, s.Live E ht)
    (fun s ev s' ⟨_, hs⟩ ho h => by
      obtain ⟨s₁, ht₁, hs₁, hl, -⟩ := Capture.event_active hE hs ho.1 ho.2.1
      cases h.symm.trans hs₁
      exact ⟨ht₁, hl⟩) ⟨ht, hs⟩
  exact hok.mono fun s ev h => ⟨h.1, h.2.1, h.2.2.1, h.2.2.2⟩

/-! ## Both runs -/

/-- A stretch of the captured run from between two regions: where its region begins, the
replay is with it. -/
structure Enters (E E' : Env) (w : Stretch) (s s₁ s₂ : Capture) (r : Replay) : Prop where
  quiet : run (Capture.event E) s w.quiet = some s₁
  together : ∃ ht, Together E E' s₁.app.now { s₁ with activeDump := some w.flag } ht r
  region : Along (Capture.event E) (InWindow E s₁.app.now) { s₁ with activeDump := some w.flag }
    w.region
  runs : run (Capture.event E) { s₁ with activeDump := some w.flag } w.region = some s₂
  live : ∃ ht, s₂.Live E ht

theorem Between.enters (hE : E.Captures) (hb : Between E E' s r) (hw : w.Windowed)
    (ho : Along (Capture.event E) (fun s ev => ev.Owned E.toWorld s.app) s w.events)
    (hin : Sealed E s (w :: ws)) (hrun : run (Capture.event E) s w.events = some s') :
    ∃ s₁ s₂, Enters E E' w s s₁ s₂ r ∧ s' = { s₂ with activeDump := some 0 } ∧
      s₂.app.Drained s₁.app.now ∧ Sealed E s' ws := by
  obtain ⟨ht, hlive⟩ := hb.live
  obtain ⟨s₁, s₂, hs₁, hs₂, rfl⟩ := Stretch.run_events hrun
  obtain ⟨s₁', ht₁, hs₁', hlive₁, -, hcpt⟩ :=
    Capture.run_quiet hE hlive hb.quiet hw.quiet ho.left
  cases hs₁.symm.trans hs₁'
  obtain ⟨hwithin, hend⟩ := hin s₁ hs₁
  obtain ⟨hdrained, hsealed⟩ := hend s₂ hs₂
  have howned : Along (Capture.event E) (fun s ev => ev.Owned E.toWorld s.app)
      { s₁ with activeDump := some w.flag } (w.region ++ [.setenv 0]) :=
    (ho.append hs₁).cons rfl
  have hregion := region_inWindow hE (hlive₁.setenv w.flag) hw.region howned.left
    (hwithin.cons rfl)
  have hlive₂ := run_safe (I := fun s => ∃ ht, s.Live E ht) (fun s ev s' _ hok h => by
    obtain ⟨ht, hs⟩ := hok.live
    obtain ⟨s₁, ht₁, hs₁, hl, -⟩ := Capture.event_active hE hs hok.windowed hok.owned
    cases h.symm.trans hs₁
    exact ⟨ht₁, hl⟩) ⟨ht₁, hlive₁.setenv w.flag⟩ hregion hs₂
  exact ⟨s₁, s₂, ⟨hs₁, ⟨ht₁, hb.together hlive₁ hcpt hw.flag⟩, hregion, hs₂, hlive₂⟩, rfl,
    hdrained, hsealed⟩

/-- One stretch: the replay runs its region and is between two regions again. -/
theorem stretch_together (hE : E.Captures) (hF' : E'.FilesOk) (hb : Between E E' s r)
    (hw : w.Windowed)
    (ho : Along (Capture.event E) (fun s ev => ev.Owned E.toWorld s.app) s w.events)
    (hin : Sealed E s (w :: ws)) (hrun : run (Capture.event E) s w.events = some s')
    (hl : s'.Left r.dir.record) :
    ∃ r', run (Replay.event E') r w.region = some r' ∧ Between E E' s' r' ∧ r'.dir = r.dir ∧
      Sealed E s' ws := by
  obtain ⟨s₁, s₂, hen, rfl, hd, hsealed⟩ := hb.enters hE hw ho hin hrun
  obtain ⟨_, htog⟩ := hen.together
  obtain ⟨_, hlive⟩ := hen.live
  obtain ⟨r', ht', hr', htog', hdir⟩ := window_together hE hF' htog hen.region hen.runs hl
  exact ⟨r', hr', htog'.between hlive.timely hd (Replay.run_initialized hb.initialized hr'), hdir,
    hsealed⟩

/-- All stretches, one after the other. -/
theorem stretches_together (hE : E.Captures) (hF' : E'.FilesOk) (hb : Between E E' s r)
    {vs : List Stretch} (hw : ∀ w ∈ ws, w.Windowed)
    (ho : Along (Capture.event E) (fun s ev => ev.Owned E.toWorld s.app) s
      (ws.flatMap Stretch.events))
    (hin : Sealed E s (ws ++ vs))
    (hrun : run (Capture.event E) s (ws.flatMap Stretch.events) = some s')
    (hl : s'.Left r.dir.record) :
    ∃ r', run (Replay.event E') r (ws.flatMap Stretch.region) = some r' ∧ Between E E' s' r' ∧
      r'.dir = r.dir ∧ Sealed E s' vs := by
  induction ws generalizing s r with
  | nil =>
    cases hrun
    exact ⟨r, rfl, hb, rfl, hin⟩
  | cons w ws ih =>
    have hws : ∀ w ∈ ws, w.Windowed := fun v hv => hw v (List.mem_cons_of_mem w hv)
    rw [List.flatMap_cons] at ho hrun
    obtain ⟨m, hm, hrest⟩ := run_split hrun
    have hom := ho.append hm
    -- the records of the first stretch are still there at the end
    obtain ⟨_, hlive⟩ := hb.live
    have hd : Along (Capture.event E) (fun s ev => ev.Disciplined E.toWorld s.app) s
        (w.events ++ ws.flatMap Stretch.events) := by
      have hows : Along (Capture.event E) (fun s ev => ev.Owned E.toWorld s.app) s
          ((w :: ws).flatMap Stretch.events ++ []) := by
        rwa [List.flatMap_cons, List.append_nil]
      have h := stretches_disciplined hw (by simp) hows
      rwa [List.flatMap_cons, List.append_nil] at h
    obtain ⟨m', hm', _, hlivem⟩ := Capture.run_live hE hlive hd.left
    cases hm.symm.trans hm'
    have hlm := Capture.run_left hE hlivem (hd.append hm) hrest hl
    obtain ⟨n, hn, hbn, hdir, hsealed⟩ :=
      stretch_together hE hF' hb (hw w (List.mem_cons_self ..)) ho.left hin hm hlm
    obtain ⟨r', hr', hb', hdir', hvs⟩ := ih hbn hws hom hsealed hrest (by rw [hdir]; exact hl)
    refine ⟨r', ?_, hb', hdir'.trans hdir, hvs⟩
    rw [List.flatMap_cons, run_append, hn]
    exact hr'

/-- One call of a region. -/
theorem stretch_call (hE : E.Captures) (hF' : E'.FilesOk) (hb : Between E E' s r)
    (hw : w.Windowed)
    (ho : Along (Capture.event E) (fun s ev => ev.Owned E.toWorld s.app) s w.events)
    (hin : Sealed E s (w :: ws)) (hrun : run (Capture.event E) s w.events = some s')
    (hl : s'.Left r.dir.record) {xs ys : List Event} {c : Call}
    (hsplit : w.region = xs ++ .call c :: ys) :
    ∃ m m' n n', run (Capture.event E) s (w.quiet ++ .setenv w.flag :: xs) = some m ∧
      Capture.step E m c = some m' ∧ run (Replay.event E') r xs = some n ∧
      Replay.step E' n c = some n' ∧ n'.cptRead = m'.cptWrite ∧
      ∀ a ∈ (inbound E.toWorld m.app c).flatten, n'.mem a = m'.app.mem a := by
  obtain ⟨s₁, s₂, hen, rfl, -⟩ := hb.enters hE hw ho hin hrun
  obtain ⟨_, htog⟩ := hen.together
  have hregion := hen.region
  have hruns := hen.runs
  rw [hsplit] at hregion hruns
  obtain ⟨m, m', n, n', hm, hm', hn, hn', hread, hmem⟩ :=
    window_call hE hF' htog hregion hruns hl
  refine ⟨m, m', n, n', ?_, hm', hn, hn', hread, hmem⟩
  rw [run_append, hen.quiet]
  exact hm

/-- After each round the replay is where `MPI_Init` first left it. -/
theorem rounds_together (hE : E.Captures) (hF' : E'.FilesOk) (hb : Between E E' s r)
    (h0 : s.cptWrite = 0) (hw : ∀ w ∈ ws, w.Windowed)
    (ho : Along (Capture.event E) (fun s ev => ev.Owned E.toWorld s.app) s
      (ws.flatMap Stretch.events))
    (hin : Sealed E s ws) (hrun : run (Capture.event E) s (ws.flatMap Stretch.events) = some s')
    (hl : s'.Left r.dir.record) (l : Lang) (m : Nat) :
    ∃ r', run (Replay.event E') r (rounds ws l m) = some r' ∧ Between E E' s r' ∧
      r'.dir = r.dir := by
  induction m with
  | zero => exact ⟨r, rfl, hb, rfl⟩
  | succ m ih =>
    obtain ⟨r₁, hr₁, hb₁, hdir₁⟩ := ih
    have hin' : Sealed E s (ws ++ []) := by rwa [List.append_nil]
    obtain ⟨r₂, hr₂, hb₂, hdir₂, -⟩ :=
      stretches_together hE hF' hb₁ hw ho hin' hrun (by rw [hdir₁]; exact hl)
    have hinit : Replay.event E' r₂ (.call (.init l)) = some r₂.reinit := if_pos hb₂.initialized
    refine ⟨r₂.reinit, ?_, ⟨hb.live, hb.quiet, ⟨hb₂.ready.rank, hb₂.ready.size, hb₂.ready.sound⟩,
      h0.symm, hb₂.empty, hb₂.initialized⟩, hdir₂.trans hdir₁⟩
    unfold rounds
    rw [run_append, hr₁, Option.bind_some, run_append, hr₂, Option.bind_some, run_single]
    exact hinit

/-- **Regions replay alone, together and again.** -/
theorem regions_replay (hE : E.Captures) (hE' : E'.Replays E) (h0 : E.mpireActiveDump = some 0)
    {mem : Mem} {reqs : Addr → Int} {dir : Dir} {post : List Event} (hw : ∀ w ∈ ws, w.Windowed)
    (hpost : ∀ ev ∈ post, ev.windowed)
    (ho : Along (Capture.event E) (fun s ev => ev.Owned E.toWorld s.app)
      (Capture.start E mem reqs dir) (ws.flatMap Stretch.events ++ post))
    (hin : Sealed E (Capture.start E mem reqs dir) ws) :
    Replayable E E' mem reqs dir ws post := by
  have hact : (Capture.start E mem reqs dir).activeDump = some 0 := by
    show some (E.mpireActiveDump.getD 1) = some 0
    rw [h0]
    rfl
  have hstart := Capture.start_live (E := E) mem reqs dir
  have hd := stretches_disciplined hw hpost ho
  obtain ⟨s₃, hs₃, _, hlive₃⟩ := Capture.run_live hE hstart hd
  obtain ⟨s₂, hs₂, hrest⟩ := run_split hs₃
  obtain ⟨s₂', hs₂', _, hlive₂⟩ := Capture.run_live hE hstart hd.left
  cases hs₂.symm.trans hs₂'
  have hleft : s₂.Left s₃.dir.record :=
    Capture.run_left hE hlive₂ (hd.append hs₂) hrest fun _ _ => rfl
  refine ⟨s₃, (Capture.exec_eq hE _).trans hs₃, fun mem' l => ?_⟩
  have hb : Between E E' (Capture.start E mem reqs dir) (Replay.start E' E mem' s₃.dir) :=
    ⟨⟨[], hstart⟩, hact, Replay.start_ready mem' _, rfl, rfl, rfl⟩
  refine ⟨_, Replay.mpiInit_boot hE hE' mem' hlive₃.ready.nprocs, fun m => ?_⟩
  obtain ⟨r₁, hr₁, hb₁, hdir₁⟩ :=
    rounds_together hE hE'.files hb rfl hw ho.left hin hs₂ hleft l m
  refine ⟨⟨r₁, hr₁⟩, fun us w vs xs c ys hws hsplit => ?_⟩
  subst hws
  rw [List.flatMap_append, List.flatMap_cons] at ho hd hs₂
  obtain ⟨su, hsu, hs₂⟩ := run_split hs₂
  obtain ⟨sw, hsw, hend⟩ := run_split hs₂
  -- the log at the end contains that of the regions before, and of this one
  have hdu := hd.left.append hsu
  obtain ⟨su', hsu', _, hliveu⟩ := Capture.run_live hE hstart hd.left.left
  cases hsu.symm.trans hsu'
  obtain ⟨sw', hsw', _, hlivew⟩ := Capture.run_live hE hliveu hdu.left
  cases hsw.symm.trans hsw'
  have hlw := Capture.run_left hE hlivew (hdu.append hsw) hend hleft
  have hlu := Capture.run_left hE hliveu hdu.left hsw hlw
  have hwu : ∀ v ∈ us, v.Windowed := fun v hv => hw v (List.mem_append_left _ hv)
  obtain ⟨r₂, hr₂, hb₂, hdir₂, hsealed⟩ := stretches_together hE hE'.files hb₁ hwu ho.left.left
    hin hsu (by rw [hdir₁]; exact hlu)
  obtain ⟨c₁, c₂, n, n', hc₁, hc₂, hn, hn', hread, hmem⟩ := stretch_call hE hE'.files hb₂
    (hw w (by simp)) ((ho.left.append hsu).left) hsealed hsw
    (by rw [hdir₂, hdir₁]; exact hlw) hsplit
  refine ⟨c₁, c₂, n, n', ?_, hc₂, ?_, hn', hread, hmem⟩
  · rw [Capture.exec_eq hE, run_append, hsu]
    exact hc₁
  · rw [run_append, hr₁, Option.bind_some, run_append, hr₂]
    exact hn

/-- A receive inside each of two regions and one between them. -/
theorem regions_replay_two :
    Replayable quietProcesses quietProcesses (fun _ => 0) (fun _ => 0) ⟨none, fun _ => none⟩
      [⟨[.call (.bcast .c ⟨0, 2, .byte⟩ 1 worldComm)], 1,
          [.call (.irecv .c ⟨4, 2, .byte⟩ worldComm 116), .call (.wait .c 116)]⟩,
        ⟨[.call (.irecv .fortran ⟨2, 2, .byte⟩ worldComm 116), .call (.wait .fortran 116)], 1,
          [.call (.irecv .c ⟨6, 2, .byte⟩ worldComm 116), .call (.wait .c 116)]⟩]
      [.call (.barrier .c)] :=
  regions_replay quietProcesses_captures quietProcesses_replays rfl (by decide) (by decide)
    (by decide) (by decide)

end MPIre

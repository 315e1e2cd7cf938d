import Mathlib.Data.List.Nodup
import MPIre.Chronicle
import MPIre.ReplayRun
/-
# What was in the log directory before

`init_MPIre` writes into a directory that exists (capture:101-104), `MPI_File_open` with
`MPI_MODE_CREATE` and `MPI_MODE_RDWR` keeps the bytes of an existing record, and a write
replaces only those it covers. So a capture leaves its records as a layer over what was
there (`exec_onto`), and a replay that asks for more than was captured reads through it.
Two directories are told apart afterwards exactly if they differ, past that layer, where
a replay gets to (`hidden_iff`).

`nprocs` is opened with `"w"`, which empties it first, and does not show.
-/
namespace MPIre
open Gather Run

def Dir.empty : Dir := ⟨none, fun _ => none⟩

/-- All a replay shows of itself. -/
def Replay.shown (r : Replay) : Replay := { r with dir := .empty }

/-- After the capture run no replay loads other data from `d₁` than from `d₂`, or exits at
another call. -/
def Hidden (E : Env) (mem : Mem) (reqs : Addr → Int) (evs : List Event) (d₁ d₂ : Dir) : Prop :=
  ∀ s₁ s₂, Capture.exec E mem reqs d₁ evs = some s₁ → Capture.exec E mem reqs d₂ evs = some s₂ →
    ∀ (E' : Env) (mem' : Mem) (hks : List Replay.Hook),
      (Replay.exec E' mem' s₁.dir hks).map Replay.shown =
        (Replay.exec E' mem' s₂.dir hks).map Replay.shown

theorem cells_byte (a : Addr) (n : Nat) :
    Buf.cells ⟨a, n, .byte⟩ = (List.range n).map fun i : Nat => a + i := by
  unfold Buf.cells Datatype.element Datatype.byte
  rw [List.map_eq_flatMap]
  simp

theorem nodup_cells_byte (a : Addr) (n : Nat) : (Buf.cells ⟨a, n, .byte⟩).Nodup := by
  rw [cells_byte]
  refine List.nodup_range.map fun i j h => ?_
  have h : @Eq Int (a + i) (a + j) := h
  omega

namespace Capture

variable {E : Env} {d : Dir} {s : Capture}

/-! ## The capture as a layer -/

/-- The library, had it written into `d` instead of an empty directory. -/
def onto (d : Dir) (s : Capture) : Capture :=
  { s with dir := ⟨s.dir.nprocs <|> d.nprocs, Journal.layer d.record s.dir.record⟩ }

theorem writeInFile_onto (b : Buf) :
    writeInFile E (s.onto d) b = (writeInFile E s b).map (onto d) := by
  unfold writeInFile
  have hact : (s.onto d).activeDump = s.activeDump := rfl
  have hhist : (s.onto d).hist = s.hist := rfl
  rw [hact, hhist]
  cases s.activeDump with
  | none => rfl
  | some v =>
    by_cases h0 : v = 0
    · simp [h0]
    · by_cases hf : (E.access s.hist.length).fopen < 0
      · simp [h0, hf]
      · simp only [h0, hf, if_false, Option.map_some, Option.some.injEq]
        by_cases ho : (E.access s.hist.length).fopen = mpiSuccess
        · simp only [ho, if_true, onto, Journal.write_layer]
        · simp only [ho, if_false, onto]

theorem settle_onto (key a : Addr) (x : Capture × Htable) :
    settle E.hashPointer (writeInFile E) key a (Prod.map (onto d) id x) =
      (settle E.hashPointer (writeInFile E) key a x).map (Prod.map (onto d) id) := by
  obtain ⟨s, ht⟩ := x
  unfold settle
  simp only [Prod.map_apply, id_eq]
  cases getRequest E.hashPointer ht key with
  | none => rfl
  | some e =>
    simp only [writeInFile_onto]
    cases writeInFile E s e.toBuf with
    | none => rfl
    | some s₁ => cases delRequest ht (E.hashPointer a) e <;> rfl

theorem drain_onto {loop : Capture × Htable → Option (Capture × Htable)}
    (hl : ∀ x, loop (Prod.map (onto d) id x) = (loop x).map (Prod.map (onto d) id)) :
    drain E (s.onto d) loop = (drain E s loop).map (onto d) := by
  unfold drain
  have hrank : (s.onto d).mpireRank = s.mpireRank := rfl
  have htab : (s.onto d).requestHtab = s.requestHtab := rfl
  rw [hrank, htab]
  by_cases hr : E.rank worldComm = s.mpireRank
  · rw [if_pos hr, if_pos hr]
    cases s.requestHtab with
    | none => rfl
    | some ht =>
      have hx := hl (s, ht)
      simp only [Option.bind_eq_bind, Option.bind_some]
      simp only [Prod.map_apply, id_eq] at hx
      rw [hx]
      cases loop (s, ht) <;> rfl
  · rw [if_neg hr, if_neg hr]
    rfl

theorem receive_onto (ps : List Addr) (dump : Bool) (b : Buf) :
    receive E (s.onto d) ps dump b = (receive E s ps dump b).map (onto d) := by
  unfold receive
  cases dump with
  | false => rfl
  | true => exact writeInFile_onto (s := { s with app := pmpiReceive E.toWorld s.app ps }) b

theorem irecv_onto (l : Lang) (b : Buf) (comm : Comm) (a : Addr) :
    irecv l E (s.onto d) b comm a = (irecv l E s b comm a).map (onto d) := by
  unfold irecv register
  have hrank : (s.onto d).mpireRank = s.mpireRank := rfl
  have htab : (s.onto d).requestHtab = s.requestHtab := rfl
  rw [hrank, htab]
  by_cases hr : E.rank comm = s.mpireRank
  · rw [if_pos hr, if_pos hr]
    cases s.requestHtab with
    | none => rfl
    | some ht =>
      simp only [Option.bind_eq_bind, Option.bind_some]
      cases addRequest E.hashPointer ht b a <;> rfl
  · rw [if_neg hr, if_neg hr]
    rfl

theorem initMPIre_onto : initMPIre E (s.onto d) = (initMPIre E s).map (onto d) := by
  unfold initMPIre
  cases E.mpireRank with
  | none => rfl
  | some r =>
    by_cases hr : E.rank worldComm = r
    · cases hn : E.nprocsOpens <;> simp [hr, onto]
    · simp [hr, onto]

/-- The step lemma: what was in the directory decides nothing. -/
theorem step_onto (c : Call) : step E (s.onto d) c = (step E s c).map (onto d) := by
  have happ : (s.onto d).app = s.app := rfl
  have hrank : (s.onto d).mpireRank = s.mpireRank := rfl
  rw [step_perform, step_perform, happ, hrank]
  cases callAction E s.app s.mpireRank c with
  | init => exact initMPIre_onto (s := { s with app := s.app.tick E.toWorld })
  | finalize | answer app | fault => rfl
  | receive ps dump b => exact receive_onto ps dump b
  | post l b comm a => exact irecv_onto l b comm a
  | drain app key as =>
    let loop := fun x => as.foldlM (fun x a => settle E.hashPointer (writeInFile E) (key a) a x) x
    have hl : ∀ x, loop (Prod.map (onto d) id x) = (loop x).map (Prod.map (onto d) id) := fun x =>
      run_map (fun x a => settle_onto (key a) a x) x as
    exact drain_onto (s := { s with app := app }) hl

theorem event_onto (s : Capture) (ev : Event) :
    event E (s.onto d) ev = (event E s ev).map (onto d) := by
  cases ev with
  | call c => exact step_onto c
  | compute f | setenv v | copy dst src => rfl

/-- A run into a directory is the run into an empty one, over what was there. -/
theorem exec_onto (mem : Mem) (reqs : Addr → Int) (d : Dir) (evs : List Event) :
    exec E mem reqs d evs = (exec E mem reqs .empty evs).map (onto d) := by
  have hboot : mpiInit E (boot E mem reqs d) = (mpiInit E (boot E mem reqs .empty)).map (onto d) :=
    step_onto (s := boot E mem reqs .empty) (.init .c)
  unfold exec
  rw [hboot]
  cases mpiInit E (boot E mem reqs .empty) with
  | none => rfl
  | some s₀ => exact run_map event_onto s₀ evs

end Capture

namespace Replay

variable {E : Env} {D₁ D₂ : Dir} {r f : Replay}

/-! ## Two directories that agree where a replay gets to -/

/-- The same library over two directories, after reading records of the first. -/
structure Alike (D₁ D₂ : Dir) (r f : Replay) : Prop where
  other : f = { r with dir := D₂ }
  dir : r.dir = D₁
  initialized : r.initialized = true
  read : ∀ i < r.cptRead, (D₁.record i).isSome

variable (hD : ∀ i, (∀ j < i, (D₁.record j).isSome) → D₁.record i = D₂.record i)
include hD

theorem alike_read (h : Alike D₁ D₂ r f) (b : Buf) :
    Option.Rel (Alike D₁ D₂) (readInFile E r b) (readInFile E f b) := by
  obtain ⟨rfl, hdir, hinit, hread⟩ := h
  have hrec : D₂.record r.cptRead = r.dir.record r.cptRead := by
    rw [hdir]
    exact (hD _ hread).symm
  have hopen : ∀ a, openCode { r with dir := D₂ } a = r.openCode a := by
    intro a
    unfold openCode
    simp only [hrec]
  unfold readInFile
  simp only [hopen, hrec]
  by_cases ho : r.openCode (E.access r.hist.length) = mpiSuccess
  · simp only [ho, ne_eq, not_true_eq_false, if_false]
    refine .some ⟨rfl, hdir, hinit, fun i hi => ?_⟩
    -- the record just read was there
    have hsome : (D₁.record r.cptRead).isSome := by
      rw [← hdir]
      unfold openCode at ho
      cases hl : r.dir.record r.cptRead with
      | none =>
        rw [hl] at ho
        cases ho
      | some l => rfl
    rcases Nat.lt_succ_iff_lt_or_eq.1 hi with hi | rfl
    · exact hread i hi
    · exact hsome
  · simp only [ho, ne_eq, not_false_eq_true, if_true]
    exact .none

theorem alike_related : Related E E (Alike D₁ D₂) where
  hash := rfl
  table h := by
    rw [h.other]
  returned _ h := ⟨by rw [h.other], h.dir, h.initialized, h.read⟩
  answered _ h := ⟨by rw [h.other], h.dir, h.initialized, h.read⟩
  read b h := alike_read hD h b

theorem alike_perform (h : Alike D₁ D₂ r f) (act : Action) :
    Option.Rel (Alike D₁ D₂) (perform E r act) (perform E f act) := by
  have hrel : act.reaches = false →
      Option.Rel (Alike D₁ D₂) (perform E r act) (perform E f act) := (alike_related hD).perform h
  obtain ⟨rfl, hdir, hinit, hread⟩ := h
  cases act with
  | init =>
    show Option.Rel _ (mpiInit E r) (mpiInit E { r with dir := D₂ })
    unfold mpiInit
    rw [if_pos hinit, if_pos hinit]
    exact .some ⟨rfl, hdir, hinit, fun i hi => absurd hi (Nat.not_lt_zero i)⟩
  | finalize | fallThrough b => exact .some ⟨rfl, hdir, hinit, hread⟩
  | answer out | receive load b | drain as | post b a | fault => exact hrel rfl

theorem alike_hook (h : Alike D₁ D₂ r f) (hk : Hook) :
    Option.Rel (Alike D₁ D₂) (hook E r hk) (hook E f hk) := by
  have hrank : f.mpireRank = r.mpireRank := by rw [h.other]
  have hsize : f.mpireSize = r.mpireSize := by rw [h.other]
  rw [hook_eq, hook_eq, hrank, hsize]
  exact alike_perform hD h _

/-- Replays over the two directories show the same. -/
theorem exec_shown (hn : D₁.nprocs = D₂.nprocs) (mem : Mem) (hks : List Hook) :
    (exec E mem D₁ hks).map shown = (exec E mem D₂ hks).map shown := by
  have hinit : Option.Rel (Alike D₁ D₂) (mpiInit E (boot mem D₁)) (mpiInit E (boot mem D₂)) := by
    unfold mpiInit initMPIre boot
    simp only [Bool.false_eq_true, if_false, hn]
    cases E.mpireRank with
    | none => exact .none
    | some x =>
      cases hnp : (if E.nprocsOpens = true then D₂.nprocs else none) with
      | none => exact .none
      | some n => exact .some ⟨rfl, rfl, rfl, fun i hi => absurd hi (Nat.not_lt_zero i)⟩
  have hexec : Option.Rel (Alike D₁ D₂) (exec E mem D₁ hks) (exec E mem D₂ hks) :=
    rel_bind hinit fun _ _ h =>
      run_rel (p := fun _ => True) (fun _ _ i h _ => alike_hook hD h i) h fun _ _ => trivial
  revert hexec
  cases exec E mem D₁ hks <;> cases exec E mem D₂ hks <;> intro hexec
  · rfl
  · cases hexec
  · cases hexec
  · cases hexec with
    | some h => rw [h.other]; rfl

omit hD

/-! ## A replay that looks at one record -/

/-- Pass over `i` records, and read `n` bytes of the next. -/
def probe (n : Nat) : Nat → List Hook
  | 0 => [.call (.recv .c ⟨0, n, .byte⟩ worldComm)]
  | i + 1 => .call (.recv .c ⟨0, 0, .byte⟩ worldComm) :: probe n i

theorem recv_eq (hF : E.FilesOk) (b : Buf) (comm : Comm) :
    hook E r (.call (.recv .c b comm)) = (r.dir.record r.cptRead).map fun l =>
      { r with
        cptRead := r.cptRead + 1
        mem := scatter r.mem b.cells l
        hist := r.hist ++ [⟨r.cptRead, b, ⟨mpiSuccess, mpiSuccess⟩⟩]
        ret := mpiSuccess } := by
  show receive E r true b = _
  unfold receive readInFile openCode
  rw [hF]
  cases r.dir.record r.cptRead <;> simp [success, mpiSuccess, noSuchFile]

theorem run_probe (hF : E.FilesOk) (n : Nat) : ∀ (i : Nat) {r : Replay},
    (∀ j < i, (r.dir.record (r.cptRead + j)).isSome) →
      (run (hook E) r (probe n i)).map Replay.mem =
        (r.dir.record (r.cptRead + i)).map (scatter r.mem (Buf.cells ⟨0, n, .byte⟩))
  | 0, r, _ => by
    rw [probe, run_single, recv_eq hF]
    cases r.dir.record r.cptRead <;> rfl
  | i + 1, r, h => by
    obtain ⟨l, hl⟩ := Option.isSome_iff_exists.1 (h 0 (Nat.zero_lt_succ i))
    have hl : r.dir.record r.cptRead = some l := hl
    rw [probe, run_cons, recv_eq hF, hl, Option.map_some, Option.bind_some, run_probe hF n i]
    · have hpast : r.cptRead + 1 + i = r.cptRead + (i + 1) := by omega
      simp only [hpast, show Buf.cells ⟨0, 0, .byte⟩ = [] from rfl, scatter]
    · intro j hj
      have hpast : r.cptRead + 1 + j = r.cptRead + (j + 1) := by omega
      show (r.dir.record (r.cptRead + 1 + j)).isSome
      rw [hpast]
      exact h (j + 1) (by omega)

/-- The same from `MPI_Init` on. -/
theorem exec_probe {D : Dir} {size : Int} (hn : D.nprocs = some size) {i : Nat}
    (h : ∀ j < i, (D.record j).isSome) (m : Mem) (n : Nat) :
    (exec fourProcesses m D (probe n i)).map Replay.mem =
      (D.record i).map (scatter m (Buf.cells ⟨0, n, .byte⟩)) := by
  let r : Replay := { boot m D with
    now := 1
    mpireSize := size
    inputPath := snprintf 1024 (defaultPath 0)
    initialized := true }
  have hinit : mpiInit fourProcesses (boot m D) = some r := by
    unfold mpiInit initMPIre boot
    rw [hn]
    rfl
  have hreach : ∀ j < i, (r.dir.record (r.cptRead + j)).isSome := by
    intro j hj
    show (D.record (0 + j)).isSome
    rw [Nat.zero_add]
    exact h j hj
  have hrun := run_probe (E := fourProcesses) (fun _ => rfl) n i hreach
  have hrec : r.dir.record (r.cptRead + i) = D.record i := by
    show D.record (0 + i) = _
    rw [Nat.zero_add]
  rw [hrec] at hrun
  unfold exec
  rw [hinit]
  exact hrun

/-- Directories in which every replay reads the same have the same record `i`, if it can
be reached. -/
theorem record_eq {size : Int} (hn₁ : D₁.nprocs = some size) (hn₂ : D₂.nprocs = some size) {i : Nat}
    (h₁ : ∀ j < i, (D₁.record j).isSome) (h₂ : ∀ j < i, (D₂.record j).isSome)
    (h : ∀ (m : Mem) (hks : List Hook),
      (exec fourProcesses m D₁ hks).map shown = (exec fourProcesses m D₂ hks).map shown) :
    D₁.record i = D₂.record i := by
  have hsame : ∀ (m : Mem) (n : Nat),
      (D₁.record i).map (scatter m (Buf.cells ⟨0, n, .byte⟩)) =
        (D₂.record i).map (scatter m (Buf.cells ⟨0, n, .byte⟩)) := by
    intro m n
    have hmem := congrArg (Option.map Replay.mem) (h m (probe n i))
    rw [Option.map_map, Option.map_map] at hmem
    rw [← exec_probe hn₁ h₁, ← exec_probe hn₂ h₂]
    exact hmem
  cases hl₁ : D₁.record i with
  | none =>
    have hnone := hsame (fun _ => 0) 0
    rw [hl₁] at hnone
    exact (Option.map_eq_none_iff.1 hnone.symm).symm
  | some l₁ =>
    cases hl₂ : D₂.record i with
    | none =>
      have hnone := hsame (fun _ => 0) 0
      rw [hl₁, hl₂] at hnone
      cases hnone
    | some l₂ =>
      -- a buffer with room for both
      have hlen : (Buf.cells ⟨0, (l₁.length + l₂.length : Nat), .byte⟩).length =
          l₁.length + l₂.length := by
        rw [cells_byte, List.length_map, List.length_range]
      have : Nontrivial Byte := ⟨0, 1, by decide⟩
      have heq : l₁ = l₂ := by
        refine scatter_inj _ l₁ l₂ (nodup_cells_byte 0 (l₁.length + l₂.length)) (by omega)
          (by omega) fun m a _ => ?_
        have hboth := hsame m (l₁.length + l₂.length)
        rw [hl₁, hl₂] at hboth
        exact congrFun (Option.some.inj hboth) a
      rw [heq]

end Replay

variable {E : Env} {mem : Mem} {reqs : Addr → Int} {evs : List Event} {d₁ d₂ : Dir} {w : Capture}

/-- **Stale records.** Let the run of the captured process leave `w` in an empty directory.
It hides whether it was started in `d₁` or in `d₂` if and only if, past its own records,
these hold the same, up to the first record that is not there. -/
theorem hidden_iff (hr : E.mpireRank = some (E.rank worldComm))
    (hw : Capture.exec E mem reqs .empty evs = some w) :
    Hidden E mem reqs evs d₁ d₂ ↔
      ∀ i, (∀ j < i, (Journal.rest d₁.record w.dir.record j).isSome) →
        Journal.rest d₁.record w.dir.record i = Journal.rest d₂.record w.dir.record i := by
  have hs : ∀ d, Capture.exec E mem reqs d evs = some (w.onto d) := by
    intro d
    rw [Capture.exec_onto, hw]
    rfl
  obtain ⟨ht, hready⟩ := Capture.exec_ready hr hw
  have hn : ∀ d, (w.onto d).dir.nprocs = some (E.size worldComm) := by
    intro d
    show (w.dir.nprocs <|> d.nprocs) = _
    rw [hready.nprocs]
    rfl
  constructor
  · intro hhid i
    induction i using Nat.strong_induction_on with
    | _ i ih =>
      intro hreach
      have hreach₂ : ∀ j < i, (Journal.rest d₂.record w.dir.record j).isSome := by
        intro j hj
        rw [← ih j hj fun k hk => hreach k (hk.trans hj)]
        exact hreach j hj
      have hrec : (w.onto d₁).dir.record i = (w.onto d₂).dir.record i := by
        refine Replay.record_eq (hn d₁) (hn d₂) (fun j hj => ?_) (fun j hj => ?_)
          (hhid _ _ (hs d₁) (hs d₂) fourProcesses)
        · exact (Journal.isSome_layer ..).trans (hreach j hj)
        · exact (Journal.isSome_layer ..).trans (hreach₂ j hj)
      exact Journal.layer_eq_iff.1 hrec
  · intro hrest s₁ s₂ hs₁ hs₂ E' mem' hks
    obtain rfl := Option.some.inj ((hs d₁).symm.trans hs₁)
    obtain rfl := Option.some.inj ((hs d₂).symm.trans hs₂)
    refine Replay.exec_shown (fun i hi => ?_) (by rw [hn, hn]) mem' hks
    refine Journal.layer_eq_iff.2 (hrest i fun j hj => ?_)
    rw [← Journal.isSome_layer]
    exact hi j hj

/-- A receive of one byte over a log of one record of one byte. -/
theorem hidden_covered :
    Hidden fourProcesses (fun _ => 0) (fun _ => 0) [.call (.recv .c ⟨0, 1, .byte⟩ worldComm)]
      .empty ⟨some 2, fun i => if i = 0 then some [9] else none⟩ :=
  (hidden_iff rfl rfl).2 fun i _ => match i with
    | 0 => rfl
    | _ + 1 => rfl

/-- The same over a log of more records: the second receive of a replay loads the old one. -/
theorem hidden_longer :
    ¬ Hidden fourProcesses (fun _ => 0) (fun _ => 0) [.call (.recv .c ⟨0, 1, .byte⟩ worldComm)]
      .empty ⟨some 4, fun _ => some [9]⟩ := by
  intro h
  have hsame := h _ _ rfl rfl fourProcesses (fun _ => 0)
    [.call (.recv .c ⟨0, 1, .byte⟩ worldComm), .call (.recv .c ⟨0, 1, .byte⟩ worldComm)]
  have hexits := congrArg Option.isSome hsame
  revert hexits
  decide

end MPIre

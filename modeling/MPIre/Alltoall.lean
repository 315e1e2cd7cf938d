import MPIre.Communicators
/-
# The one record of an alltoall

`MPI_Alltoall` and `MPI_Alltoallv` receive a block from each process. Both libraries
make one record of it: the first so many elements of the receive buffer, a total they
compute in an `int` (capture:373-414, replay:232-266).

* `totals_iff`: in the capture the total is the mathematical one exactly if that fits an
  `int`. The replay adds up as many counts as the world has processes, so there it must also
  be the total of these.
* `blocks_iff`: `rdispls` is not looked at, so the blocks come back exactly if each of
  their bytes is among these first elements, as with packed displacements in any order
  (`covered_iff`), and not if there are gaps (`blocks_gap`).
-/
namespace MPIre
open Gather Run

/-! ## Totals -/

/-- `MPI_Alltoall` through either binding, and the C `MPI_Alltoallv`. -/
def Call.totalled : Call → Bool
  | .alltoall .. => true
  | .alltoallv l .. => l == .c
  | _ => false

/-- The communicator of an alltoall. -/
def Call.peers : Call → Comm
  | .alltoall _ _ comm | .alltoallv _ _ _ _ _ comm => comm
  | _ => worldComm

/-- The elements received from `n` processes. -/
def Call.total (n : Int) : Call → Int
  | .alltoall _ b _ => b.count * n
  | .alltoallv _ _ rc _ _ _ => ((List.range n.toNat).map rc).sum
  | _ => 0

/-- What MPI accepts from `n` processes. -/
def Call.Accepted (n : Int) : Call → Prop
  | .alltoall _ b _ => 1 ≤ n ∧ 0 ≤ b.count ∧ b.count ≤ intMax
  | .alltoallv _ _ rc _ _ _ => 1 ≤ n ∧ ∀ i, i < n.toNat → 0 ≤ rc i ∧ rc i ≤ intMax
  | _ => True

/-- For `n` processes neither the product nor a turn of the loop over `recvcounts` wraps. -/
def Call.Unwrapped (n : Int) : Call → Prop
  | .alltoall _ b _ => cInt (b.count * n) = b.count * n
  | .alltoallv _ _ rc _ _ _ =>
    ∀ k : Nat, k ≤ n.toNat → totalRecvcounts rc k = ((List.range k).map rc).sum
  | _ => True

/-- The total for `n` processes and the sums on the way to it are `int`s. -/
def Call.InRange (n : Int) : Call → Prop
  | .alltoall _ b _ => FitsInt (b.count * n)
  | .alltoallv _ _ rc _ _ _ => ∀ k : Nat, k ≤ n.toNat → FitsInt ((List.range k).map rc).sum
  | _ => True

/-- The call dumps one record, of exactly its total, and nothing wraps on the way. -/
def Capture.TotalExact (E : Env) (s : Capture) (c : Call) : Prop :=
  ∃ s', Capture.step E s c = some s' ∧
    s'.hist.map (fun t => t.buf.count) =
      s.hist.map (fun t => t.buf.count) ++ [c.total (E.size c.peers)] ∧
    0 ≤ c.total (E.size c.peers) ∧ c.Unwrapped (E.size c.peers)

/-- The same for the record it loads, on a communicator of `n` processes. What the library adds
up are the counts for as many as `MPI_Comm_size` answers there. -/
def Replay.TotalExact (E : Env) (r : Replay) (c : Call) (n : Int) : Prop :=
  ∃ r', Replay.step E r c = some r' ∧
    r'.hist.map (fun t => t.buf.count) = r.hist.map (fun t => t.buf.count) ++ [c.total n] ∧
    0 ≤ c.total n ∧ c.Unwrapped r.mpiCommSize

instance (n : Int) : ∀ c : Call, Decidable (c.Accepted n)
  | .alltoall _ b _ => inferInstanceAs (Decidable (1 ≤ n ∧ 0 ≤ b.count ∧ b.count ≤ intMax))
  | .alltoallv _ _ rc _ _ _ => inferInstanceAs (Decidable
    (1 ≤ n ∧ ∀ i, i < n.toNat → 0 ≤ rc i ∧ rc i ≤ intMax))
  | .init _ | .finalize _ | .send _ | .isend .. | .barrier _ | .recv .. | .irecv .. | .wait ..
  | .waitall .. | .bcast .. | .allreduce .. | .reduce .. => isTrue trivial

instance (n : Int) : ∀ c : Call, Decidable (c.InRange n)
  | .alltoall _ b _ => inferInstanceAs (Decidable (FitsInt (b.count * n)))
  | .alltoallv _ _ rc _ _ _ => decidable_of_iff
    (∀ k < n.toNat + 1, FitsInt ((List.range k).map rc).sum) <|
      forall_congr' fun _ => imp_congr_left Nat.lt_succ_iff
  | .init _ | .finalize _ | .send _ | .isend .. | .barrier _ | .recv .. | .irecv .. | .wait ..
  | .waitall .. | .bcast .. | .allreduce .. | .reduce .. => isTrue trivial

variable {E E' : Env} {s : Capture} {r : Replay} {ht : Htable} {c : Call}

theorem cInt_eq_self_iff {x : Int} : cInt x = x ↔ FitsInt x := by
  constructor
  · intro h
    have hlo := Int.le_bmod (x := x) (m := 2 ^ 32) (by decide)
    have hhi := Int.bmod_lt (x := x) (m := 2 ^ 32) (by decide)
    unfold cInt at h
    unfold FitsInt intMax
    omega
  · exact cInt_eq

theorem total_nonneg {n : Int} (h : c.Accepted n) : 0 ≤ c.total n := by
  cases c with
  | alltoall l b comm => exact Int.mul_nonneg h.2.1 (by have := h.1; omega)
  | alltoallv l recvbuf rc rd t comm => exact sum_counts_nonneg fun i hi => (h.2 i hi).1
  | _ => exact Int.le_refl 0

theorem unwrapped_iff {n : Int} : c.Unwrapped n ↔ c.InRange n := by
  cases c with
  | alltoall l b comm => exact cInt_eq_self_iff
  | alltoallv l recvbuf rc rd t comm =>
    refine forall_congr' fun k => imp_congr_right fun _ => ?_
    rw [totalRecvcounts_eq, Int.toNat_natCast]
    exact cInt_eq_self_iff
  | _ => exact Iff.rfl

theorem fits_of_inRange {n : Int} (h : c.InRange n) : FitsInt (c.total n) := by
  cases c with
  | alltoall l b comm => exact h
  | alltoallv l recvbuf rc rd t comm => exact h n.toNat (Nat.le_refl _)
  | _ => exact (by decide : FitsInt 0)

/-- The sums on the way to a total that fits are no larger. -/
theorem inRange_of_fits {n : Int} (h : c.Accepted n) (hf : FitsInt (c.total n)) :
    c.InRange n := by
  cases c with
  | alltoall l b comm => exact hf
  | alltoallv l recvbuf rc rd t comm =>
    intro k hk
    have hlo : 0 ≤ ((List.range k).map rc).sum :=
      sum_counts_nonneg fun i hi => (h.2 i (by omega)).1
    have hle := sum_counts_mono hk fun i hi => (h.2 i hi).1
    have hf : FitsInt ((List.range n.toNat).map rc).sum := hf
    unfold FitsInt intMax at hf ⊢
    omega
  | _ => trivial

/-- The buffer the hooks pass on for `n` processes. -/
def Call.whole (n : Int) : Call → Buf
  | .alltoall _ b _ => { b with count := cInt (b.count * n) }
  | .alltoallv _ recvbuf rc _ t _ => ⟨recvbuf, totalRecvcounts rc n, t⟩
  | _ => ⟨0, 0, .byte⟩

theorem whole_count {n : Int} (hc : c.totalled) : (c.whole n).count = cInt (c.total n) := by
  cases c with
  | alltoall l b comm => rfl
  | alltoallv l recvbuf rc rd t comm => exact totalRecvcounts_eq rc n
  | _ => cases hc

theorem Capture.step_whole (hs : s.Ready E ht) (hc : c.totalled)
    (hrank : E.rank c.peers = E.rank worldComm) :
    ∃ ps, Capture.step E s c = Capture.receive E s ps true (c.whole (E.size c.peers)) := by
  have hd : decide (E.rank c.peers = s.mpireRank) = true :=
    decide_eq_true (hrank.trans hs.rank.symm)
  cases c with
  | alltoall l b comm =>
    refine ⟨Buf.cells { b with count := b.count * E.size comm }, ?_⟩
    rw [← hd]
    cases l <;> rfl
  | alltoallv l recvbuf rc rd t comm =>
    obtain rfl : l = .c := beq_iff_eq.1 hc
    refine ⟨(blocks recvbuf rc rd t (E.size comm)).flatMap Buf.cells, ?_⟩
    rw [← hd]
    rfl
  | _ => cases hc

theorem Replay.step_whole (hc : c.totalled) :
    Replay.step E' r c = Replay.receive E' r true (c.whole r.mpiCommSize) := by
  cases c with
  | alltoall l b comm => cases l <;> rfl
  | alltoallv l recvbuf rc rd t comm =>
    obtain rfl : l = .c := beq_iff_eq.1 hc
    rfl
  | _ => cases hc

/-- A record of the buffer for `m` processes has the total for `n` as its count exactly if that
is what the total for `m` wraps to. -/
theorem count_exact_iff {m n : Int} {old new : List Transfer} (hc : c.totalled)
    (h : new.map Transfer.buf = old.map Transfer.buf ++ single (c.whole m) true) :
    new.map (fun t => t.buf.count) = old.map (fun t => t.buf.count) ++ [c.total n] ↔
      cInt (c.total m) = c.total n := by
  have hcount := congrArg (List.map Buf.count) h
  rw [List.map_append, List.map_map, List.map_map] at hcount
  have hcount : new.map (fun t => t.buf.count) =
      old.map (fun t => t.buf.count) ++ [(c.whole m).count] := hcount
  rw [hcount, List.append_cancel_left_eq, whole_count hc, List.cons.injEq]
  simp

/-- An alltoall under the capture library. -/
theorem Capture.totalExact_iff (hs : s.Ready E ht) (hF : E.FilesOk) (ha : s.activeDump ≠ some 0)
    (hc : c.totalled) (hrank : E.rank c.peers = E.rank worldComm)
    (hacc : c.Accepted (E.size c.peers)) :
    Capture.TotalExact E s c ↔ FitsInt (c.total (E.size c.peers)) := by
  obtain ⟨ps, hstep⟩ := Capture.step_whole hs hc hrank
  obtain ⟨s', hs', hhist⟩ := Capture.receive_hist hs hF ha ps true (c.whole (E.size c.peers))
  have hexact := count_exact_iff (n := E.size c.peers) hc hhist
  rw [cInt_eq_self_iff] at hexact
  unfold Capture.TotalExact
  rw [hstep, hs']
  constructor
  · rintro ⟨s₁, hs₁, hcount, -⟩
    cases hs₁
    exact hexact.1 hcount
  · intro hf
    exact ⟨s', rfl, hexact.2 hf, total_nonneg hacc, unwrapped_iff.2 (inRange_of_fits hacc hf)⟩

/-- An alltoall on a communicator of `n` processes under the replay library. -/
theorem Replay.totalExact_iff {n : Int} (hF : E'.FilesOk)
    (hlog : (r.dir.record r.cptRead).isSome) (hc : c.totalled) (hacc : c.Accepted n) :
    Replay.TotalExact E' r c n ↔
      c.total r.mpiCommSize = c.total n ∧ c.InRange r.mpiCommSize := by
  obtain ⟨r', hr', hhist⟩ := Replay.receive_hist hF hlog true (c.whole r.mpiCommSize)
  have hexact := count_exact_iff (n := n) hc hhist
  unfold Replay.TotalExact
  rw [Replay.step_whole hc, hr']
  constructor
  · rintro ⟨r₁, hr₁, hcount, -, hun⟩
    cases hr₁
    have hin := unwrapped_iff.1 hun
    -- nothing has wrapped, so the count is the total it was computed as
    have hself := cInt_eq_self_iff.2 (fits_of_inRange hin)
    exact ⟨hself.symm.trans (hexact.1 hcount), hin⟩
  · rintro ⟨htotal, hin⟩
    have hself := cInt_eq_self_iff.2 (fits_of_inRange hin)
    exact ⟨r', rfl, hexact.2 (hself.trans htotal), total_nonneg hacc, unwrapped_iff.2 hin⟩

/-- **Element totals.** In any reachable state of the capture library an alltoall goes on with
its exact total if and only if that fits an `int`. In any state of the replay library with a
record left it does, on a communicator of `n` processes, if and only if the counts for as many
processes as `MPI_Comm_size` answers add up to the same, without leaving an `int` on the way. -/
theorem totals_iff (hr : E.mpireRank = some (E.rank worldComm)) (hF : E.FilesOk)
    (hF' : E'.FilesOk) {mem : Mem} {reqs : Addr → Int} {dir : Dir} {evs : List Event}
    (hs : Capture.exec E mem reqs dir evs = some s) (ha : s.activeDump ≠ some 0)
    (hlog : (r.dir.record r.cptRead).isSome) (hc : c.totalled)
    (hrank : E.rank c.peers = E.rank worldComm) (hacc : c.Accepted (E.size c.peers)) {n : Int}
    (hn : c.Accepted n) :
    (Capture.TotalExact E s c ↔ FitsInt (c.total (E.size c.peers))) ∧
      (Replay.TotalExact E' r c n ↔
        c.total r.mpiCommSize = c.total n ∧ c.InRange r.mpiCommSize) := by
  obtain ⟨ht, hs⟩ := Capture.exec_ready hr hs
  exact ⟨Capture.totalExact_iff hs hF ha hc hrank hacc, Replay.totalExact_iff hF' hlog hc hn⟩

/-- Two replays of four processes over a log of empty records. -/
def emptyRecords : Replay :=
  Replay.start fourProcesses fourProcesses (fun _ => 0) ⟨some 4, fun _ => some []⟩

/-- The largest counts whose total is still an `int`. -/
theorem totals_largest :
    Capture.TotalExact fourProcesses
        (Capture.start fourProcesses (fun _ => 0) (fun _ => 0) ⟨none, fun _ => none⟩)
        (.alltoall .fortran ⟨0, 536870911, .byte⟩ worldComm) ∧
      Replay.TotalExact fourProcesses emptyRecords
        (.alltoall .fortran ⟨0, 536870911, .byte⟩ worldComm) 4 := by
  have hrun : Capture.exec fourProcesses (fun _ => 0) (fun _ => 0) ⟨none, fun _ => none⟩ [] =
      some (Capture.start fourProcesses (fun _ => 0) (fun _ => 0) ⟨none, fun _ => none⟩) := rfl
  have hF : fourProcesses.FilesOk := fun _ => rfl
  have h := totals_iff (r := emptyRecords) (c := .alltoall .fortran ⟨0, 536870911, .byte⟩ worldComm)
    (n := 4) rfl hF hF hrun (by decide) rfl rfl rfl (by decide) (by decide)
  exact ⟨h.1.2 (by decide), h.2.2 (by decide)⟩

/-- One element more from each process; and in the replay, one element from each process of a
communicator of two, whose size it takes for that of the world. -/
theorem totals_wrap :
    ¬ Capture.TotalExact fourProcesses
        (Capture.start fourProcesses (fun _ => 0) (fun _ => 0) ⟨none, fun _ => none⟩)
        (.alltoall .c ⟨0, 536870912, .byte⟩ worldComm) ∧
      ¬ Replay.TotalExact fourProcesses emptyRecords
        (.alltoall .c ⟨0, 536870912, .byte⟩ worldComm) 4 ∧
      ¬ Replay.TotalExact fourProcesses emptyRecords (.alltoall .c ⟨0, 1, .byte⟩ 2) 2 := by
  refine ⟨?_, ?_, ?_⟩
  · rw [Capture.totalExact_iff (Capture.start_ready ..) (fun _ => rfl) (by decide) rfl rfl
      (by decide)]
    decide
  · rw [Replay.totalExact_iff (fun _ => rfl) rfl rfl (by decide)]
    decide
  · rw [Replay.totalExact_iff (fun _ => rfl) rfl rfl (by decide)]
    decide

/-! ## Blocks -/

/-- The call is recorded, and replayed from its record it leaves in every block what the
capture received there, whatever the buffer held. -/
def RestoresBlocks (E E' : Env) (s : Capture) (recvbuf : Addr) (recvcounts rdispls : Nat → Int)
    (recvtype : Datatype) : Prop :=
  let c : Call := .alltoallv .c recvbuf recvcounts rdispls recvtype worldComm
  ∃ s', Capture.step E s c = some s' ∧ ∀ r : Replay, r.Ready E' E.toWorld →
    r.cptRead = s.cptWrite → s'.Left r.dir.record → ∃ r', Replay.step E' r c = some r' ∧
      ∀ b ∈ blocks recvbuf recvcounts rdispls recvtype (E.size worldComm), ∀ a ∈ b.cells,
        r'.mem a = s'.app.mem a

/-- Every byte of a block is a byte of the buffer's first elements, as many as the
counts add up to. -/
def Covered (recvbuf : Addr) (recvcounts rdispls : Nat → Int) (recvtype : Datatype) (n : Int) :
    Prop :=
  ∀ b ∈ blocks recvbuf recvcounts rdispls recvtype n, ∀ a ∈ b.cells,
    a ∈ Buf.cells ⟨recvbuf, totalRecvcounts recvcounts n, recvtype⟩

instance (recvbuf : Addr) (rc rd : Nat → Int) (t : Datatype) (n : Int) :
    Decidable (Covered recvbuf rc rd t n) :=
  inferInstanceAs (Decidable (∀ b ∈ blocks recvbuf rc rd t n, ∀ a ∈ b.cells,
    a ∈ Buf.cells ⟨recvbuf, totalRecvcounts rc n, t⟩))

theorem mem_cells {b : Buf} {a : Addr} : a ∈ b.cells ↔
    ∃ k : Nat, (k : Int) < b.count ∧ ∃ d ∈ b.datatype.typemap,
      b.buf + k * b.datatype.extent + d = a := by
  unfold Buf.cells Datatype.element
  simp only [List.mem_flatMap, List.mem_range, List.mem_map]
  constructor
  · rintro ⟨k, hk, d, hd, ha⟩
    exact ⟨k, by omega, d, hd, ha⟩
  · rintro ⟨k, hk, d, hd, ha⟩
    exact ⟨k, by omega, d, hd, ha⟩

/-- No byte belongs to two elements. -/
def Datatype.Disjoint (t : Datatype) : Prop :=
  ∀ i j : Int, ∀ d ∈ t.typemap, ∀ e ∈ t.typemap, i * t.extent + d = j * t.extent + e → i = j

/-- For elements that do not overlap: each block of some elements starts at or after the
buffer, and ends within as many elements as the counts add up to. -/
theorem covered_iff {recvbuf : Addr} {rc rd : Nat → Int} {t : Datatype} {n : Int}
    (ht : t.typemap ≠ []) (hdis : t.Disjoint) :
    Covered recvbuf rc rd t n ↔ ∀ i < n.toNat, 0 < rc i →
      0 ≤ rd i ∧ rd i + rc i ≤ totalRecvcounts rc n := by
  have hblock : ∀ i < n.toNat,
      (⟨recvbuf + rd i * t.extent, rc i, t⟩ : Buf) ∈ blocks recvbuf rc rd t n := fun i hi =>
    List.mem_map.2 ⟨i, List.mem_range.2 hi, rfl⟩
  constructor
  · intro hcov i hi hpos
    obtain ⟨d, hd⟩ := List.exists_mem_of_ne_nil _ ht
    -- element `k` of the block is one of the first elements of the buffer
    have hel : ∀ k : Nat, (k : Int) < rc i →
        0 ≤ rd i + k ∧ rd i + k < totalRecvcounts rc n := by
      intro k hk
      have hin := hcov _ (hblock i hi) _ (mem_cells.2 ⟨k, hk, d, hd, rfl⟩)
      obtain ⟨j, hj, e, he, heq⟩ := mem_cells.1 hin
      have hj : (j : Int) < totalRecvcounts rc n := hj
      have heq : @Eq Int (recvbuf + j * t.extent + e)
        (recvbuf + rd i * t.extent + k * t.extent + d) := heq
      have hsame : (j : Int) = rd i + k := by
        refine hdis j (rd i + k) e he d hd ?_
        rw [Int.add_mul]
        omega
      omega
    have hfirst := hel 0 hpos
    have hlast := hel (rc i - 1).toNat (by omega)
    omega
  · intro h b hb a ha
    obtain ⟨i, hi, rfl⟩ := List.mem_map.1 hb
    obtain ⟨k, hk, d, hd, rfl⟩ := mem_cells.1 ha
    have hk : (k : Int) < rc i := hk
    have hin := h i (List.mem_range.1 hi) (by omega)
    have hnat : ((rd i + k).toNat : Int) = rd i + k := Int.toNat_of_nonneg (by omega)
    refine mem_cells.2 ⟨(rd i + k).toNat, ?_, d, hd, ?_⟩
    · show ((rd i + k).toNat : Int) < totalRecvcounts rc n
      omega
    · show @Eq Int (recvbuf + ((rd i + k).toNat : Int) * t.extent + d)
        (recvbuf + rd i * t.extent + k * t.extent + d)
      rw [hnat, Int.add_mul]
      omega

/-- **Blocks.** They all come back exactly if the record covers them. -/
theorem blocks_iff (hE : E.Captures) (hE' : E'.Replays E) {mem : Mem} {reqs : Addr → Int}
    {dir : Dir} {evs : List Event} (hs : Capture.exec E mem reqs dir evs = some s)
    (ha : s.activeDump ≠ some 0) {recvbuf : Addr} {rc rd : Nat → Int} {t : Datatype} :
    RestoresBlocks E E' s recvbuf rc rd t ↔ Covered recvbuf rc rd t (E.size worldComm) := by
  obtain ⟨ht, hs⟩ := Capture.exec_ready hE.rank hs
  obtain ⟨s', hs'⟩ : ∃ s', Capture.step E s (.alltoallv .c recvbuf rc rd t worldComm) = some s' :=
    ⟨_, Capture.step_eq (c := .alltoallv .c recvbuf rc rd t worldComm) hs hE.files rfl trivial⟩
  -- the replay copies the bytes of the record
  have hload : ∀ r : Replay, r.Ready E' E.toWorld → r.cptRead = s.cptWrite →
      s'.Left r.dir.record →
      ∃ r', Replay.step E' r (.alltoallv .c recvbuf rc rd t worldComm) = some r' ∧
        r'.mem = overlay (Buf.cells ⟨recvbuf, totalRecvcounts rc (E.size worldComm), t⟩)
          s'.app.mem r.mem := by
    intro r hr hread hleft
    refine ⟨_, lockstep hs hE.files hr hE'.files (c := .alltoallv .c recvbuf rc rd t worldComm)
      rfl rfl ha hread trivial trivial rfl hs' hleft, ?_⟩
    rw [Replay.loaded_mem]
    simp [dumped]
  constructor
  · rintro ⟨s₁, hs₁, hall⟩ b hb a hab
    obtain rfl := Option.some.inj (hs'.symm.trans hs₁)
    by_contra hout
    -- a buffer that differs everywhere from what was received
    let r : Replay := { Replay.start E' E (fun x => s'.app.mem x + 1) s'.dir with
      cptRead := s.cptWrite }
    have hready : r.Ready E' E.toWorld := ⟨rfl, rfl, Htable.sound_nil⟩
    obtain ⟨r', hr', hmem⟩ := hload r hready rfl fun _ _ => rfl
    obtain ⟨r₁, hr₁, hblocks⟩ := hall r hready rfl fun _ _ => rfl
    obtain rfl := Option.some.inj (hr'.symm.trans hr₁)
    have hsame := hblocks b hb a hab
    rw [hmem, overlay_not_mem hout] at hsame
    have hne : s'.app.mem a + 1 ≠ s'.app.mem a := by simp
    exact hne hsame
  · intro hcov
    refine ⟨s', hs', fun r hr hread hleft => ?_⟩
    obtain ⟨r', hr', hmem⟩ := hload r hr hread hleft
    refine ⟨r', hr', fun b hb a hab => ?_⟩
    rw [hmem, overlay_mem (hcov b hb a hab)]

/-- Four blocks of which the second comes first, and the third is empty. -/
theorem blocks_permuted :
    RestoresBlocks fourProcesses fourProcesses
      (Capture.start fourProcesses (fun _ => 0) (fun _ => 0) ⟨none, fun _ => none⟩) 0
      (fun i => [2, 3, 0, 1].getD i 0) (fun i => [3, 0, 9, 5].getD i 0) .byte := by
  have hrun : Capture.exec fourProcesses (fun _ => 0) (fun _ => 0) ⟨none, fun _ => none⟩ [] =
      some (Capture.start fourProcesses (fun _ => 0) (fun _ => 0) ⟨none, fun _ => none⟩) := rfl
  exact (blocks_iff fourProcesses_captures fourProcesses_replays hrun (by decide)).2 (by decide)

/-- Four blocks of one byte with a gap after the first: the last lies past the record. -/
theorem blocks_gap :
    ¬ RestoresBlocks fourProcesses fourProcesses
      (Capture.start fourProcesses (fun _ => 0) (fun _ => 0) ⟨none, fun _ => none⟩) 0
      (fun _ => 1) (fun i => if i = 0 then 0 else i + 1) .byte := by
  rintro ⟨s', hs', hall⟩
  let r : Replay := Replay.start fourProcesses fourProcesses (fun _ => 0) s'.dir
  obtain ⟨r', hr', hblocks⟩ := hall r ⟨rfl, rfl, Htable.sound_nil⟩ rfl fun _ _ => rfl
  have hsame := hblocks ⟨4, 1, .byte⟩ (by decide) 4 (by decide)
  cases hs'
  cases hr'
  revert hsame
  decide

end MPIre

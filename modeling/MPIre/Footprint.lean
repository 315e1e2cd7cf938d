import MPIre.ReplayRun
/-
# What a replay depends on, and what it touches

The records only ever go to memory. So two replays of the same calls over logs with the same
records take the same course whatever is in the records and in memory (`exec_contents`): each
call returns the same code, opens the same file or ends both, and leaves the same table.

And they only go to the buffers that the application passed (`exec_frame`), if no call is one
whose buffer the library takes for longer than it is: the two alltoalls on a communicator smaller
than the world, and `MPI_Alltoallv` from Fortran or with blocks that are not packed.
-/
namespace MPIre
open Gather Run

/-- The same files, whatever is in the records. -/
structure Dir.Shaped (d d' : Dir) : Prop where
  nprocs : d'.nprocs = d.nprocs
  records : ∀ i, (d'.record i).isSome = (d.record i).isSome

namespace Replay

variable {E : Env} {r f r' : Replay}

/-! ## The course of a replay -/

/-- The same library with another memory and other contents of its log. -/
def Akin (r f : Replay) : Prop :=
  ∃ mem dir, r.dir.Shaped dir ∧ f = { r with mem := mem, dir := dir }

theorem akin_read (h : Akin r f) (b : Buf) :
    Option.Rel Akin (readInFile E r b) (readInFile E f b) := by
  obtain ⟨mem, dir, hd, rfl⟩ := h
  have hcode : ∀ a, openCode { r with mem := mem, dir := dir } a = r.openCode a := by
    intro a
    have hrec := hd.records r.cptRead
    unfold openCode
    dsimp only
    cases hr : r.dir.record r.cptRead <;> cases hf : dir.record r.cptRead
    · rfl
    · rw [hr, hf] at hrec
      cases hrec
    · rw [hr, hf] at hrec
      cases hrec
    · rfl
  unfold readInFile
  dsimp only
  rw [hcode]
  by_cases hopen : r.openCode (E.access r.hist.length) ≠ mpiSuccess
  · rw [if_pos hopen, if_pos hopen]
    exact .none
  · rw [if_neg hopen, if_neg hopen]
    exact .some ⟨_, dir, hd, rfl⟩

theorem akin_related : Related E E Akin where
  hash := rfl
  table := by
    rintro r f ⟨mem, dir, -, rfl⟩
    rfl
  returned := by
    rintro r f ht ⟨mem, dir, hd, rfl⟩
    exact ⟨mem, dir, hd, rfl⟩
  answered := by
    rintro r f out ⟨mem, dir, hd, rfl⟩
    exact ⟨mem, dir, hd, rfl⟩
  read b h := akin_read h b

theorem akin_init (h : Akin r f) : Option.Rel Akin (mpiInit E r) (mpiInit E f) := by
  obtain ⟨mem, dir, hd, rfl⟩ := h
  unfold mpiInit
  dsimp only
  by_cases hi : r.initialized = true
  · rw [if_pos hi, if_pos hi]
    exact .some ⟨mem, dir, hd, rfl⟩
  · rw [if_neg hi, if_neg hi]
    unfold initMPIre
    dsimp only
    cases E.mpireRank with
    | none => exact .none
    | some k =>
      rw [hd.nprocs]
      cases if E.nprocsOpens = true then r.dir.nprocs else none with
      | none => exact .none
      | some n => exact .some ⟨mem, dir, hd, rfl⟩

/-- The step lemma. -/
theorem akin_hook (h : Akin r f) (c : Hook) : Option.Rel Akin (hook E r c) (hook E f c) := by
  rw [hook_eq, hook_eq]
  have hsite : f.mpireRank = r.mpireRank ∧ f.mpireSize = r.mpireSize := by
    obtain ⟨mem, dir, -, rfl⟩ := h
    exact ⟨rfl, rfl⟩
  rw [hsite.1, hsite.2]
  generalize c.action E r.mpireRank r.mpireSize = act
  cases hact : act.reaches with
  | false => exact akin_related.perform h hact
  | true =>
    cases act with
    | init => exact akin_init h
    | finalize | fallThrough b =>
      obtain ⟨mem, dir, hd, rfl⟩ := h
      exact .some ⟨_, dir, hd, rfl⟩
    | answer out | post b a | receive load b | drain as | fault => cases hact

/-- **The course of a replay is that of its calls.** What is in the records and in memory decides
no return code, no file, no exit and no entry of the table. -/
theorem exec_contents (mem mem' : Mem) {dir dir' : Dir} (hd : dir.Shaped dir') (hs : List Hook) :
    Option.Rel Akin (exec E mem dir hs) (exec E mem' dir' hs) :=
  rel_bind (akin_init (r := boot mem dir) ⟨mem', dir', hd, rfl⟩) fun _ _ h =>
    run_rel (p := fun _ => True) (fun _ _ c h _ => akin_hook h c) h fun _ _ => trivial

/-- A record of two bytes, and one of none. -/
theorem exec_contents_cut :
    Option.Rel Akin
      (exec (.plain (fun _ => 0) (fun _ => 2) 0) (fun _ => 0) ⟨some 2, fun _ => some [7, 8]⟩
        [.call (.irecv .c ⟨8, 2, .byte⟩ 0 100), .call (.wait .c 100)])
      (exec (.plain (fun _ => 0) (fun _ => 2) 0) (fun _ => 1) ⟨some 2, fun _ => some []⟩
        [.call (.irecv .c ⟨8, 2, .byte⟩ 0 100), .call (.wait .c 100)]) :=
  have hd : Dir.Shaped ⟨some 2, fun _ => some [7, 8]⟩ ⟨some 2, fun _ => some []⟩ :=
    ⟨rfl, fun _ => rfl⟩
  exec_contents _ _ hd _

/-! ## The memory a replay touches -/

/-- The bytes of the buffers that a call lets MPI receive into, at once or when it completes, if
its communicator has as many processes as `size` says. -/
def Hook.area (size : Comm → Int) : Hook → List Addr
  | .call (.recv _ b _) | .call (.irecv _ b _ _) | .call (.bcast _ b _ _)
  | .call (.allreduce _ b _) | .call (.reduce _ b _ _) | .reduceNoUnderscore b _ => b.cells
  | .call (.alltoall _ b comm) => Buf.cells { b with count := b.count * size comm }
  | .call (.alltoallv _ recvbuf rc rd t comm) =>
    (blocks recvbuf rc rd t (size comm)).flatMap Buf.cells
  | _ => []

/-- The library, which was told that there are `n` processes, does not take the buffer of an
alltoall for longer: the communicator has no fewer, and counts are not negative. The blocks of
`MPI_Alltoallv` are packed, and it is called from C. -/
def Hook.Contained (size : Comm → Int) (n : Int) : Hook → Prop
  | .call (.alltoall _ b comm) => 0 ≤ b.count ∧ 0 ≤ n ∧ n ≤ size comm
  | .call (.alltoallv l _ rc rd _ comm) => l = .c ∧ n ≤ size comm ∧
    ∀ i < (size comm).toNat, 0 ≤ rc i ∧ rd i = ((List.range i).map rc).sum
  | _ => True

instance (size : Comm → Int) (n : Int) : ∀ h : Hook, Decidable (h.Contained size n)
  | .call (.alltoall ..) | .call (.alltoallv ..) => inferInstanceAs (Decidable (_ ∧ _))
  | .call (.init _) | .call (.finalize _) | .call (.send _) | .call (.isend ..)
  | .call (.barrier _) | .call (.recv ..) | .call (.irecv ..) | .call (.wait ..)
  | .call (.waitall ..) | .call (.bcast ..) | .call (.allreduce ..) | .call (.reduce ..)
  | .finalized _ | .abort _ | .commRank _ | .commSize _ | .start _ | .reduceNoUnderscore .. =>
    isTrue trivial

/-- Memory is that of the start outside of `ps`, and so will it be when the receives of the
table complete. -/
structure Within (ps : Addr → Prop) (mem : Mem) (r : Replay) : Prop where
  mem : ∀ a, ¬ ps a → r.mem a = mem a
  table : ∀ x ∈ r.requestHtab, ∀ a ∈ x.2.toBuf.cells, ps a

variable {ps : Addr → Prop} {mem : Mem}

/-- A wrapped total is not greater than the exact one. -/
theorem cInt_le {x : Int} (h : 0 ≤ x) : cInt x ≤ x := by
  unfold cInt
  rw [Int.bmod_def]
  split <;> omega

theorem cells_mono (a : Addr) (t : Datatype) {m n : Int} (h : m ≤ n) {x : Addr}
    (hx : x ∈ Buf.cells ⟨a, m, t⟩) : x ∈ Buf.cells ⟨a, n, t⟩ := by
  unfold Buf.cells at hx ⊢
  obtain ⟨i, hi, hx⟩ := List.mem_flatMap.1 hx
  have hi : i < m.toNat := List.mem_range.1 hi
  have hin : i < n.toNat := by omega
  exact List.mem_flatMap.2 ⟨i, List.mem_range.2 hin, hx⟩

/-- The buffers of an action are inside. -/
def Action.Inside (ps : Addr → Prop) : Action → Prop
  | .post b _ | .receive true b | .fallThrough b => ∀ a ∈ b.cells, ps a
  | _ => True

/-- A hook whose area is inside hands on buffers that are. -/
theorem action_inside {size : Comm → Int} {n : Int} {c : Hook} (ha : ∀ a ∈ c.area size, ps a)
    (hc : c.Contained size n) (rank : Int) : (c.action E rank n).Inside ps := by
  have hload : ∀ {b : Buf} (load : Bool), (∀ a ∈ b.cells, ps a) →
      (Action.receive load b).Inside ps := fun load h => by
    cases load with
    | false => trivial
    | true => exact h
  cases c with
  | call k =>
    cases k with
    | recv l b comm | allreduce l b comm | irecv l b comm a => exact ha
    | bcast l b root comm => exact hload _ ha
    | reduce l b root comm =>
      cases l with
      | c => exact hload _ ha
      | fortran => exact ha
    | alltoall l b comm =>
      obtain ⟨hcount, hn, hsize⟩ := hc
      have hle : cInt (b.count * n) ≤ b.count * size comm :=
        Int.le_trans (cInt_le (Int.mul_nonneg hcount hn)) (Int.mul_le_mul_of_nonneg_left hsize hcount)
      exact fun a h => ha a (cells_mono b.buf b.datatype hle h)
    | alltoallv l recvbuf rc rd t comm =>
      obtain ⟨rfl, hsize, hp⟩ := hc
      have hblocks : blocks recvbuf rc rd t (size comm) =
          blocks recvbuf rc rd t ((size comm).toNat : Int) := by
        simp only [blocks, Int.toNat_natCast]
      have ha : ∀ a ∈ (blocks recvbuf rc rd t (size comm)).flatMap Buf.cells, ps a := ha
      rw [hblocks, packed_cells recvbuf t hp] at ha
      have hnat : n.toNat ≤ (size comm).toNat := Int.toNat_le_toNat hsize
      have hcounts : ∀ i < (size comm).toNat, 0 ≤ rc i := fun i hi => (hp i hi).1
      refine fun a h => ha a (cells_mono recvbuf t ?_ h)
      rw [totalRecvcounts_eq]
      exact Int.le_trans (cInt_le (sum_counts_nonneg fun i hi => hcounts i (by omega)))
        (sum_counts_mono hnat hcounts)
    | _ => trivial
  | reduceNoUnderscore b root => exact hload _ ha
  | _ => trivial

theorem mem_of_getRequest {hash : Addr → UInt32} {ht : Htable} {a : Addr} {e : Request}
    (h : getRequest hash ht a = some e) : ∃ x ∈ ht, x.2 = e := by
  obtain ⟨x, hx, rfl⟩ := Option.map_eq_some_iff.1 h
  exact ⟨x, List.mem_of_find?_eq_some hx, rfl⟩

theorem mem_of_delRequest {ht ht' : Htable} {k : UInt32} {e : Request}
    (h : delRequest ht k e = some ht') {x : UInt32 × Request} (hx : x ∈ ht') : x ∈ ht := by
  unfold delRequest HashBag.del at h
  split at h
  · cases h
    exact List.mem_of_mem_erase hx
  · cases h

theorem read_frame {b : Buf} (h : readInFile E r b = some r') {a : Addr} (ha : a ∉ b.cells) :
    r'.mem a = r.mem a := by
  obtain ⟨-, rfl⟩ := readInFile_some h
  dsimp only
  split
  · exact scatter_not_mem _ _ ha
  · rfl

/-- One turn of a wait loads into the buffer of an entry. -/
theorem settle_within {a : Addr} {x y : Replay × Htable}
    (hx : Within ps mem { x.1 with requestHtab := x.2 })
    (h : settle E.hashPointer (readInFile E) a a x = some y) :
    Within ps mem { y.1 with requestHtab := y.2 } := by
  unfold settle at h
  split at h
  · cases h
    exact hx
  · rename_i e he
    obtain ⟨s, hs, h⟩ := Option.bind_eq_some_iff.1 h
    obtain ⟨ht, hdel, h⟩ := Option.bind_eq_some_iff.1 h
    cases h
    obtain ⟨q, hq, rfl⟩ := mem_of_getRequest he
    refine ⟨fun b hb => ?_, fun q' hq' => hx.table q' (mem_of_delRequest hdel hq')⟩
    exact (read_frame hs fun hcell => hb (hx.table q hq b hcell)).trans (hx.mem b hb)

/-- The step lemma. -/
theorem perform_within {act : Action} (hw : Within ps mem r) (ha : act.Inside ps)
    (h : perform E r act = some r') : Within ps mem r' := by
  cases act with
  | init =>
    rcases mpiInit_some h with ⟨-, rfl⟩ | ⟨-, _, _, -, -, rfl⟩
    · exact ⟨hw.mem, hw.table⟩
    · exact ⟨hw.mem, fun x hx => absurd hx List.not_mem_nil⟩
  | finalize =>
    cases h
    exact ⟨hw.mem, fun x hx => absurd hx List.not_mem_nil⟩
  | answer out =>
    cases h
    exact ⟨hw.mem, hw.table⟩
  | fault => cases h
  | fallThrough b =>
    cases h
    exact ⟨fun a hna => (deliver_not_mem fun hc => hna (ha a hc)).trans (hw.mem a hna), hw.table⟩
  | post b a =>
    obtain ⟨ht, hadd, h⟩ := Option.bind_eq_some_iff.1 h
    cases h
    obtain ⟨-, rfl⟩ := addRequest_some hadd
    refine ⟨hw.mem, fun x hx => ?_⟩
    rcases List.mem_cons.1 hx with rfl | hx
    · exact ha
    · exact hw.table x hx
  | receive load b =>
    cases load with
    | false =>
      cases h
      exact ⟨hw.mem, hw.table⟩
    | true =>
      obtain ⟨m, hm, h⟩ := Option.bind_eq_some_iff.1 h
      cases h
      refine ⟨fun a hna => (read_frame hm fun hc => hna (ha a hc)).trans (hw.mem a hna), ?_⟩
      show ∀ x ∈ m.requestHtab, _
      rw [readInFile_table hm]
      exact hw.table
  | drain as =>
    obtain ⟨y, hy, h⟩ := Option.bind_eq_some_iff.1 h
    cases h
    have hloop := run_safe (I := fun x : Replay × Htable =>
      Within ps mem { x.1 with requestHtab := x.2 }) (fun _ _ _ hx _ h => settle_within hx h)
      (s := (r, r.requestHtab)) hw (along_true _ as) hy
    exact ⟨hloop.mem, hloop.table⟩

/-- Among two of four processes: the buffer given is 2 bytes, the record goes to 4. -/
example : (Hook.call (.alltoall .c ⟨10, 1, .byte⟩ 2)).area (fun _ => 2) = [10, 11] ∧
    ((exec (.plain (fun _ => 0) (fun _ => 4) 0) (fun _ => 5) ⟨some 4, fun _ => some [7, 8, 9, 9]⟩
      [.call (.alltoall .c ⟨10, 1, .byte⟩ 2)]).get (by decide)).mem 13 = 9 := by
  decide

end Replay

end MPIre

import MPIre.Chronicle
import MPIre.ReplayRun
/-
# One exchange on any communicator

The capture asks for rank and size in the communicator of the call, the replay uses
`MPIre_rank` and `MPIre_size`, the process's rank in the world and the world's size
(replay:511-539). So the two agree about an exchange, and agree with MPI, exactly if
the answers coincide as far as the exchange depends on them (`agreed_iff`): the rank in
the communicator is the world rank, except for a reduce that neither answer takes for
its root; and for the two alltoalls the element total is the same modulo the width of
an `int` under both sizes.
-/
namespace MPIre
open Gather Run

/-- What a program does to receive something, through the C binding. -/
inductive Exchange where
  | recv (b : Buf)
  | irecvWait (b : Buf) (request : Addr)
  | bcast (b : Buf) (root : Int)
  | reduce (b : Buf) (root : Int)
  | allreduce (b : Buf)
  | alltoall (b : Buf)
  | alltoallv (recvbuf : Addr) (recvcounts rdispls : Nat → Int) (recvtype : Datatype)

namespace Exchange

def calls (comm : Comm) : Exchange → List Call
  | .recv b => [.recv .c b comm]
  | .irecvWait b a => [.irecv .c b comm a, .wait .c a]
  | .bcast b root => [.bcast .c b root comm]
  | .reduce b root => [.reduce .c b root comm]
  | .allreduce b => [.allreduce .c b comm]
  | .alltoall b => [.alltoall .c b comm]
  | .alltoallv recvbuf rc rd t => [.alltoallv .c recvbuf rc rd t comm]

/-- A receive is posted on a variable not registered yet. -/
def Unregistered (view : Addr → Option Buf) : Exchange → Prop
  | .irecvWait _ a => view a = none
  | _ => True

/-- The answers for `comm` and those for the world lead to the same record. -/
def Coincides (W : World) (comm : Comm) : Exchange → Prop
  | .reduce _ root =>
    W.rank comm = W.rank worldComm ∨ root ≠ W.rank comm ∧ root ≠ W.rank worldComm
  | .alltoall b =>
    W.rank comm = W.rank worldComm ∧ 2 ^ 32 ∣ b.count * (W.size worldComm - W.size comm)
  | .alltoallv _ rc _ _ =>
    W.rank comm = W.rank worldComm ∧ 2 ^ 32 ∣ ((List.range (W.size worldComm).toNat).map rc).sum -
      ((List.range (W.size comm).toNat).map rc).sum
  | _ => W.rank comm = W.rank worldComm

end Exchange

/-- The results a list of calls delivers. -/
def inbounds (W : World) (p : App) : List Call → List (List Addr)
  | [] => []
  | c :: cs => inbound W p c ++ inbounds W (effect W p c) cs

/-- Both libraries get through the calls; the capture dumps, and the replay loads, the
same buffers with the same element counts, one for each result that comes in. -/
def Agreed (E E' : Env) (s : Capture) (r : Replay) (cs : List Call) : Prop :=
  ∃ s' r' bs, run (Capture.step E) s cs = some s' ∧ run (Replay.step E') r cs = some r' ∧
    s'.hist.map Transfer.buf = s.hist.map Transfer.buf ++ bs ∧
    r'.hist.map Transfer.buf = r.hist.map Transfer.buf ++ bs ∧
    bs.length = (inbounds E.toWorld s.app cs).length

variable {E E' : Env} {W : World} {s s' : Capture} {r r' : Replay} {ht : Htable}

/-- `n` buffers of the list are those of `b`, or there are none. -/
def single (b : Buf) (n : Bool) : List Buf := if n then [b] else []

theorem agreed_of_runs {cs : List Call} {dump load comes : Bool} {b b' : Buf}
    (hs : run (Capture.step E) s cs = some s')
    (hsb : s'.hist.map Transfer.buf = s.hist.map Transfer.buf ++ single b dump)
    (hr : run (Replay.step E') r cs = some r')
    (hrb : r'.hist.map Transfer.buf = r.hist.map Transfer.buf ++ single b' load)
    (hin : (inbounds E.toWorld s.app cs).length = comes.toNat) :
    Agreed E E' s r cs ↔ dump = comes ∧ load = comes ∧ (comes → b = b') := by
  have hlists : Agreed E E' s r cs ↔
      single b dump = single b' load ∧ (single b dump).length = comes.toNat := by
    constructor
    · rintro ⟨s₁, r₁, bs, hs₁, hr₁, hsb₁, hrb₁, hlen⟩
      obtain rfl := Option.some.inj (hs.symm.trans hs₁)
      obtain rfl := Option.some.inj (hr.symm.trans hr₁)
      obtain rfl := List.append_cancel_left (hsb.symm.trans hsb₁)
      exact ⟨(List.append_cancel_left (hrb.symm.trans hrb₁)).symm, hlen.trans hin⟩
    · rintro ⟨he, hlen⟩
      exact ⟨s', r', _, hs, hr, hsb, he ▸ hrb, hlen.trans hin.symm⟩
  rw [hlists]
  cases dump <;> cases load <;> cases comes <;> simp [single]

/-! ## What each library does -/

theorem Capture.receive_hist (hs : s.Ready E ht) (hF : E.FilesOk) (ha : s.activeDump ≠ some 0)
    (ps : List Addr) (dump : Bool) (b : Buf) :
    ∃ s', Capture.receive E s ps dump b = some s' ∧
      s'.hist.map Transfer.buf = s.hist.map Transfer.buf ++ single b dump := by
  refine ⟨_, Capture.receive_eq hs hF ps dump b, ?_⟩
  rw [Capture.kept_of_active ha]
  show (s.hist ++ transfers s.cptWrite _).map Transfer.buf = _
  rw [List.map_append, transfers_buf]
  rfl

theorem Replay.receive_hist (hF : E'.FilesOk) (hlog : (r.dir.record r.cptRead).isSome)
    (load : Bool) (b : Buf) :
    ∃ r', Replay.receive E' r load b = some r' ∧
      r'.hist.map Transfer.buf = r.hist.map Transfer.buf ++ single b load := by
  cases load with
  | false => exact ⟨_, rfl, (List.append_nil _).symm⟩
  | true =>
    obtain ⟨bytes, hbytes⟩ := Option.isSome_iff_exists.1 hlog
    have hopen : r.openCode (E'.access r.hist.length) = mpiSuccess := by
      unfold Replay.openCode
      rw [hbytes, hF]
    obtain ⟨m, hm⟩ := Replay.readInFile_opens b hopen
    obtain ⟨-, rfl⟩ := Replay.readInFile_some hm
    refine ⟨_, congrArg (Option.bind · Replay.success) hm, ?_⟩
    rw [List.map_append]
    rfl

/-- An exchange of one call. -/
theorem agreed_single (hs : s.Ready E ht) (hF : E.FilesOk) (ha : s.activeDump ≠ some 0)
    (hF' : E'.FilesOk) (hlog : (r.dir.record r.cptRead).isSome) (c : Call)
    (dump load comes : Bool) {ps : List Addr} {b b' : Buf}
    (hc : Capture.step E s c = Capture.receive E s ps dump b)
    (hr : Replay.step E' r c = Replay.receive E' r load b')
    (hin : (inbound E.toWorld s.app c).length = comes.toNat) :
    Agreed E E' s r [c] ↔ dump = comes ∧ load = comes ∧ (comes → b = b') := by
  obtain ⟨s', hs', hsb⟩ := Capture.receive_hist hs hF ha ps dump b
  obtain ⟨r', hr', hrb⟩ := Replay.receive_hist hF' hlog load b'
  refine agreed_of_runs ?_ hsb ?_ hrb ?_
  · rw [run_single, hc, hs']
  · rw [run_single, hr, hr']
  · rw [inbounds, inbounds, List.append_nil, hin]

/-! ## A receive in two calls -/

theorem Capture.irecvWait_hist (hs : s.Ready E ht) (hF : E.FilesOk) (ha : s.activeDump ≠ some 0)
    (comm : Comm) (b : Buf) {a : Addr} (hu : s.registered E a = none) :
    ∃ s', run (Capture.step E) s [.irecv .c b comm a, .wait .c a] = some s' ∧
      s'.hist.map Transfer.buf =
        s.hist.map Transfer.buf ++ single b (decide (E.rank comm = s.mpireRank)) := by
  rw [hs.registered_eq] at hu
  -- the post registers only if the process has its own rank in `comm`
  obtain ⟨ht₁, hpost, hsound, hview⟩ : ∃ ht₁, Capture.step E s (.irecv .c b comm a) =
      some { s with app := pmpiPostVar E.toWorld s.app .c a (some b), requestHtab := some ht₁ } ∧
      ht₁.Sound E.hashPointer ∧
      (ht₁.view E.hashPointer a).toList = single b (decide (E.rank comm = s.mpireRank)) := by
    by_cases hc : E.rank comm = s.mpireRank
    · refine ⟨_, Capture.irecv_eq hs .c hc hu, hs.sound.posted hu, ?_⟩
      simp [view_posted, single, hc]
    · refine ⟨ht, ?_, hs.sound, by simp [hu, single, hc]⟩
      rw [← hs.eq_with]
      show Capture.irecv .c E s b comm a = _
      unfold Capture.irecv
      rw [if_neg hc]
      rfl
  have hready : ({ s with
      app := pmpiPostVar E.toWorld s.app .c a (some b)
      requestHtab := some ht₁ } : Capture).Ready E ht₁ :=
    ⟨hs.rank, hs.active, rfl, hsound, hs.nprocs⟩
  rw [run_cons, hpost, Option.bind_some, run_single]
  refine ⟨_, Capture.step_eq (c := .wait .c a) hready hF rfl trivial, ?_⟩
  show (s.hist ++ transfers s.cptWrite (s.kept (ht₁.view E.hashPointer a).toList)).map
    Transfer.buf = _
  rw [Capture.kept_of_active ha, List.map_append, transfers_buf, hview]

theorem Replay.irecvWait_hist (hr : r.Ready E' W) (hF : E'.FilesOk)
    (hlog : (r.dir.record r.cptRead).isSome) (comm : Comm) (b : Buf) {a : Addr}
    (hu : r.requestHtab.view E'.hashPointer a = none) :
    ∃ r', run (Replay.step E') r [.irecv .c b comm a, .wait .c a] = some r' ∧
      r'.hist.map Transfer.buf = r.hist.map Transfer.buf ++ single b true := by
  have hpost : Replay.step E' r (.irecv .c b comm a) = _ := Replay.irecv_eq hu
  have hv : (r.requestHtab.posted E'.hashPointer b a).view E'.hashPointer a = some b := by
    simp [view_posted]
  obtain ⟨bytes, hbytes⟩ := Option.isSome_iff_exists.1 hlog
  have hopen : { r with
      requestHtab := r.requestHtab.posted E'.hashPointer b a
      ret := mpiSuccess }.openCode (E'.access r.hist.length) = mpiSuccess := by
    simp [Replay.openCode, hbytes, hF r.hist.length]
  obtain ⟨m, hm⟩ := Replay.readInFile_opens b hopen
  have hhist : m.hist.map Transfer.buf = r.hist.map Transfer.buf ++ single b true := by
    obtain ⟨-, rfl⟩ := Replay.readInFile_some hm
    rw [List.map_append]
    rfl
  have hset := settle_eq (Replay.readInFile E') (hr.sound.posted (b := b) hu) a { r with
    requestHtab := r.requestHtab.posted E'.hashPointer b a
    ret := mpiSuccess }
  rw [hv, Option.toList_some, List.foldlM_cons, hm] at hset
  have hwait : Replay.drain { r with
      requestHtab := r.requestHtab.posted E'.hashPointer b a
      ret := mpiSuccess } (settle E'.hashPointer (Replay.readInFile E') a a) =
        Replay.success { m with
          requestHtab := (r.requestHtab.posted E'.hashPointer b a).settled E'.hashPointer a } := by
    unfold Replay.drain
    rw [hset]
    rfl
  rw [run_cons, hpost, Option.bind_some, run_single]
  exact ⟨_, hwait, hhist⟩

/-! ## All exchanges -/

theorem Exchange.agreed_iff_coincides (hs : s.Ready E ht) (hF : E.FilesOk) (hS : E.Succeeds)
    (ha : s.activeDump ≠ some 0) (hr : r.Ready E' E.toWorld) (hF' : E'.FilesOk)
    (hlog : (r.dir.record r.cptRead).isSome) {x : Exchange} {comm : Comm}
    (hu : x.Unregistered (s.registered E))
    (hu' : x.Unregistered (r.requestHtab.view E'.hashPointer)) :
    Agreed E E' s r (x.calls comm) ↔ x.Coincides E.toWorld comm := by
  have hrank := hs.rank
  have hrank' := hr.rank
  cases x with
  | recv b =>
    have h := agreed_single hs hF ha hF' hlog (.recv .c b comm)
      (E.rank comm = s.mpireRank) true true rfl rfl rfl
    simp only [hrank] at h
    simpa [Exchange.calls, Exchange.Coincides] using h
  | allreduce b =>
    have h := agreed_single hs hF ha hF' hlog (.allreduce .c b comm)
      (E.rank comm = s.mpireRank) true true rfl rfl rfl
    simp only [hrank] at h
    simpa [Exchange.calls, Exchange.Coincides] using h
  | irecvWait b a =>
    obtain ⟨s', hs', hsb⟩ := Capture.irecvWait_hist hs hF ha comm b hu
    obtain ⟨r', hr', hrb⟩ := Replay.irecvWait_hist hr hF' hlog comm b hu'
    have hin : (inbounds E.toWorld s.app [.irecv .c b comm a, .wait .c a]).length =
        true.toNat := by
      have hw := awaitsVar_posted hS s.app a b
      simp [inbounds, inbound, effect, hw]
    have h := agreed_of_runs hs' hsb hr' hrb hin
    simp only [hrank] at h
    simpa [Exchange.calls, Exchange.Coincides] using h
  | bcast b root =>
    have hin : (inbound E.toWorld s.app (.bcast .c b root comm)).length =
        (decide (E.rank comm ≠ root)).toNat := by
      by_cases hroot : E.rank comm = root <;> simp [inbound, hroot]
    have h := agreed_single hs hF ha hF' hlog (.bcast .c b root comm)
      (E.rank comm = s.mpireRank ∧ E.rank comm ≠ root) (r.mpireRank ≠ root) _ rfl rfl hin
    simp only [hrank, hrank', decide_eq_decide, implies_true, and_true] at h
    refine h.trans ?_
    show _ ↔ E.rank comm = E.rank worldComm
    omega
  | reduce b root =>
    have hin : (inbound E.toWorld s.app (.reduce .c b root comm)).length =
        (decide (E.rank comm = root)).toNat := by
      by_cases hroot : E.rank comm = root <;> simp [inbound, hroot]
    have h := agreed_single hs hF ha hF' hlog (.reduce .c b root comm)
      (E.rank comm = s.mpireRank ∧ E.rank comm = root) (r.mpireRank = root) _ rfl rfl hin
    simp only [hrank, hrank', decide_eq_decide, implies_true, and_true] at h
    refine h.trans ?_
    show _ ↔ E.rank comm = E.rank worldComm ∨ root ≠ E.rank comm ∧ root ≠ E.rank worldComm
    omega
  | alltoall b =>
    have h := agreed_single hs hF ha hF' hlog (.alltoall .c b comm)
      (E.rank comm = s.mpireRank) true true rfl rfl rfl
    simp only [hrank, Replay.mpiCommSize, hr.size, Buf.mk.injEq, cInt_eq_cInt_iff] at h
    simpa [Exchange.calls, Exchange.Coincides, Int.mul_sub] using h
  | alltoallv recvbuf rc rd t =>
    have h := agreed_single hs hF ha hF' hlog (.alltoallv .c recvbuf rc rd t comm)
      (E.rank comm = s.mpireRank) true true rfl rfl rfl
    simp only [hrank, Replay.mpiCommSize, hr.size, Buf.mk.injEq, totalRecvcounts_eq,
      cInt_eq_cInt_iff] at h
    simpa [Exchange.calls, Exchange.Coincides] using h

/-- Wherever a replay of the captured process arrives, the library is ready. -/
theorem Replay.exec_ready (hE : E.Captures) (hE' : E'.Replays E) {mem : Mem} {dir : Dir}
    {hooks : List Hook} (hd : dir.nprocs = some (E.size worldComm))
    (h : Replay.exec E' mem dir hooks = some r) : r.Ready E' E.toWorld := by
  have hi := Replay.mpiInit_boot hE hE' mem hd
  obtain ⟨r₀, h₀, h⟩ := Option.bind_eq_some_iff.1 h
  obtain rfl := Option.some.inj (hi.symm.trans h₀)
  obtain ⟨hsite, hsound⟩ := Replay.run_site ⟨rfl, rfl, rfl, rfl, rfl⟩ Htable.sound_nil h
  exact ⟨hsite.rank, hsite.size, hsound⟩

/-- **Agreement on a communicator.** From any reachable states of the two libraries,
an exchange is recorded, loaded and received alike exactly if the answers for the
communicator coincide with those for the world. -/
theorem agreed_iff (hE : E.Captures) (hE' : E'.Replays E) {mem mem' : Mem} {reqs : Addr → Int}
    {dir dir' : Dir} {evs : List Event} {hooks : List Replay.Hook}
    (hs : Capture.exec E mem reqs dir evs = some s) (ha : s.activeDump ≠ some 0)
    (hd : dir'.nprocs = some (E.size worldComm))
    (hr : Replay.exec E' mem' dir' hooks = some r) (hlog : (r.dir.record r.cptRead).isSome)
    {x : Exchange} {comm : Comm} (hu : x.Unregistered (s.registered E))
    (hu' : x.Unregistered (r.requestHtab.view E'.hashPointer)) :
    Agreed E E' s r (x.calls comm) ↔ x.Coincides E.toWorld comm := by
  obtain ⟨ht, hs⟩ := Capture.exec_ready hE.rank hs
  exact Exchange.agreed_iff_coincides hs hE.files hE.comm ha (Replay.exec_ready hE hE' hd hr)
    hE'.files hlog hu hu'

/-- Rank 1 of four, alone but for one other process in communicators 2, where its rank
is 0, and 3, where it is 1. -/
def splitProcess : Env :=
  .plain (fun comm => if comm = 2 then 0 else 1) (fun comm => if comm = worldComm then 4 else 2) 1

theorem splitProcess_captures : splitProcess.Captures := ⟨rfl, rfl, fun _ => rfl, fun _ => rfl⟩

theorem splitProcess_replays : splitProcess.Replays splitProcess := ⟨rfl, rfl, fun _ => rfl⟩

/-- A receive posted and waited for where the rank is the world rank. -/
theorem agreed_sameRank :
    Agreed splitProcess splitProcess
      (Capture.start splitProcess (fun _ => 0) (fun _ => 0) ⟨none, fun _ => none⟩)
      (Replay.start splitProcess splitProcess (fun _ => 0) ⟨some 4, fun _ => some [1, 1]⟩)
      (Exchange.calls 3 (.irecvWait ⟨0, 2, .byte⟩ 100)) := by
  have hs : Capture.exec splitProcess (fun _ => 0) (fun _ => 0) ⟨none, fun _ => none⟩ [] =
      some (Capture.start splitProcess (fun _ => 0) (fun _ => 0) ⟨none, fun _ => none⟩) := rfl
  have hr : Replay.exec splitProcess (fun _ => 0) ⟨some 4, fun _ => some [1, 1]⟩ [] =
      some (Replay.start splitProcess splitProcess (fun _ => 0)
        ⟨some 4, fun _ => some [1, 1]⟩) := rfl
  exact (agreed_iff (x := .irecvWait ⟨0, 2, .byte⟩ 100) splitProcess_captures
    splitProcess_replays hs (by decide) rfl hr rfl rfl rfl).2 rfl

/-- A receive where it is not: the capture leaves it out, the replay loads it. -/
theorem agreed_otherRank :
    ¬ Agreed splitProcess splitProcess
      (Capture.start splitProcess (fun _ => 0) (fun _ => 0) ⟨none, fun _ => none⟩)
      (Replay.start splitProcess splitProcess (fun _ => 0) ⟨some 4, fun _ => some [1, 1]⟩)
      (Exchange.calls 2 (.recv ⟨0, 2, .byte⟩)) := by
  rintro ⟨s', r', bs, hs', hr', hsb, hrb, -⟩
  have hnone : (run (Capture.step splitProcess) (Capture.start splitProcess (fun _ => 0)
      (fun _ => 0) ⟨none, fun _ => none⟩) (Exchange.calls 2 (.recv ⟨0, 2, .byte⟩))).map
        (fun s => s.hist.map Transfer.buf) = some [] := by
    decide
  have hone : (run (Replay.step splitProcess) (Replay.start splitProcess splitProcess
      (fun _ => 0) ⟨some 4, fun _ => some [1, 1]⟩) (Exchange.calls 2 (.recv ⟨0, 2, .byte⟩))).map
        (fun r => r.hist.map Transfer.buf) = some [⟨0, 2, .byte⟩] := by
    decide
  rw [hs'] at hnone
  rw [hr'] at hone
  have hbs : bs = [] := hsb.symm.trans (Option.some.inj hnone)
  have hbs' : bs = [⟨0, 2, .byte⟩] := hrb.symm.trans (Option.some.inj hone)
  rw [hbs] at hbs'
  cases hbs'

end MPIre

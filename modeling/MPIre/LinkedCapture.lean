import MPIre.CaptureRun
import MPIre.Ccan.Requests
/-
# The capture library with its hash table linked in

The hooks of the capture library over the vendored hash table, as those of the replay
library are in `LinkedReplay`. Every process has the table, as a zeroed global:
`htable_init` runs on the captured one only, `htable_clear` on all of them. So the others have
no `ht->rehash`, and end where one is called (`callsRehash`).

`run_captured` says that no run tells this library from the one over the bag. The C
`MPI_Waitall` looks a request up by its handle and deletes it by its address. A handle that
is the address of a registered variable is left out: whether `htable_del` comes across such an
entry depends on where the other entries lie.
-/
namespace MPIre
open Run

/-- The library without its table; a table that was never initialised stays so. -/
def Capture.bare (c : Capture) : Capture := { c with requestHtab := c.requestHtab.map fun _ => [] }

namespace Linked

/-- Whether `htable_add` calls `ht->rehash`: it does for each entry that `double_table` moves, and
for each that `rehash_table` finds away from the start of its search. -/
def callsRehash (A : Allocator) (t : Requests) : Bool :=
  let ht := t.requestHtab
  if ht.elems + 1 > ht.max then
    (A.calloc t.mallocs).gives (ht.bits + 1) && ht.table.isSome &&
      (List.range (1 <<< ht.bits)).any fun i => Ccan.entryIsValid (ht.slot i)
  else decide (ht.elems + 1 + ht.deleted > ht.maxWithDeleted) &&
    (List.range (1 <<< ht.bits)).any fun i =>
      Ccan.entryIsValid (ht.slot i) && ht.slot i &&& ht.perfectBit == 0

structure LinkedCapture where
  /-- Its own table stays empty. -/
  lib : Capture
  requests : Requests
  /-- `ht->rehash` is not a null pointer. -/
  rehashes : Bool

namespace LinkedCapture

def boot (E : Env) (mem : Mem) (reqs : Addr → Int) (dir : Dir) : LinkedCapture where
  lib := .boot E mem reqs dir
  requests := ⟨.init, fun _ => ⟨0, .byte, 0, 0⟩, 0⟩
  rehashes := false

variable (A : Allocator) (E : Env)

/-- `add_request`; the bucket array of a table that was never initialised is a null pointer. -/
def register (s : LinkedCapture) (b : Buf) (request : Addr) : Option LinkedCapture :=
  if s.lib.requestHtab = none then none
  else if s.rehashes = false ∧ callsRehash A s.requests then none
  else do
    let t ← addRequest A E.hashPointer s.requests b request
    pure { s with requests := t }

def setApp (s : LinkedCapture) (app : App) : LinkedCapture :=
  { s with lib := { s.lib with app := app } }

def irecv (l : Lang) (s : LinkedCapture) (b : Buf) (comm : Comm) (request : Addr) :
    Option LinkedCapture := do
  let s ← if E.rank comm = s.lib.mpireRank then register A E s b request else pure s
  pure (s.setApp (pmpiPostVar E.toWorld s.lib.app l request (some b)))

def drain (s : LinkedCapture) (loop : Capture × Requests → Option (Capture × Requests)) :
    Option LinkedCapture :=
  if E.rank worldComm = s.lib.mpireRank then
    if s.lib.requestHtab = none then none
    else do
      let (lib, t) ← loop (s.lib, s.requests)
      pure { s with lib := lib, requests := t }
  else some s

def perform (s : LinkedCapture) : Capture.Action → Option LinkedCapture
  | .init => do
    let lib ← Capture.mpiInit E s.lib
    if E.mpireRank = some (E.rank worldComm) then
      pure ⟨lib, s.requests.cleared, true⟩
    else pure { s with lib := lib }
  | .finalize => do
    let lib ← Capture.mpiFinalize E s.lib
    pure { s with lib := lib, requests := s.requests.cleared }
  | .post l b comm a => irecv A E l s b comm a
  | .drain app key as => drain E (s.setApp app) fun x =>
      as.foldlM (fun x a => settle E.hashPointer (Capture.writeInFile E) (key a) a x) x
  | act => do
    let lib ← Capture.perform E s.lib act
    pure { s with lib := lib }

def step (s : LinkedCapture) (c : Call) : Option LinkedCapture :=
  perform A E s (Capture.callAction E s.lib.app s.lib.mpireRank c)

def event (s : LinkedCapture) : Event → Option LinkedCapture
  | .call c => step A E s c
  | ev => do
    let lib ← Capture.event E s.lib ev
    pure { s with lib := lib }

/-- On the captured process, a receive is posted when there is memory for it, and no handle of
a C `MPI_Waitall` is the address of a registered variable. -/
def HasRoom (s : LinkedCapture) : Call → Prop
  | .irecv _ _ comm _ => E.rank comm = s.lib.mpireRank →
      s.requests.mallocs < A.blocks ∧ s.requests.CanGrow A
  | .waitall .c count array => E.rank worldComm = s.lib.mpireRank →
      ∀ a ∈ slots .c array count, getRequest E.hashPointer s.requests
        ((effect E.toWorld s.lib.app (.waitall .c count array)).reqs a) = some none
  | _ => True

/-- A receive is posted where no entry has to move, or the table knows how to hash it. -/
def CanHash (s : LinkedCapture) : Call → Prop
  | .irecv _ _ comm _ => E.rank comm = s.lib.mpireRank →
      s.rehashes = true ∨ callsRehash A s.requests = false
  | _ => True

def EventRoom (s : LinkedCapture) : Event → Prop
  | .call c => HasRoom A E s c ∧ CanHash A E s c
  | _ => True

instance (s : LinkedCapture) : ∀ c, Decidable (HasRoom A E s c)
  | .irecv .. => inferInstanceAs (Decidable (_ → _))
  | .waitall .c .. => inferInstanceAs (Decidable (_ → _))
  | .waitall .fortran .. | .init _ | .finalize _ | .send _ | .isend .. | .barrier _ | .recv ..
  | .wait .. | .bcast .. | .alltoall .. | .alltoallv .. | .allreduce .. | .reduce .. =>
    isTrue trivial

instance (s : LinkedCapture) : ∀ c, Decidable (CanHash A E s c)
  | .irecv .. => inferInstanceAs (Decidable (_ → _))
  | .waitall .. | .init _ | .finalize _ | .send _ | .isend .. | .barrier _ | .recv .. | .wait ..
  | .bcast .. | .alltoall .. | .alltoallv .. | .allreduce .. | .reduce .. => isTrue trivial

instance (s : LinkedCapture) : ∀ ev, Decidable (EventRoom A E s ev)
  | .call c => inferInstanceAs (Decidable (HasRoom A E s c ∧ CanHash A E s c))
  | .compute _ | .setenv _ | .copy .. => isTrue trivial

/-- The table stands for that of the other library, and nothing else differs. -/
structure Links (s : LinkedCapture) (c : Capture) : Prop where
  lib : s.lib = c.bare
  table : ∃ ps, Stands A E.hashPointer ps s.requests (c.requestHtab.getD [])

variable {A E} {s : LinkedCapture} {c : Capture}

theorem links_boot (mem : Mem) (reqs : Addr → Int) (dir : Dir) :
    Links A E (boot E mem reqs dir) (.boot E mem reqs dir) :=
  ⟨rfl, 0, stands_init _ _⟩

theorem Links.set_app (h : Links A E s c) (app : App) :
    Links A E (s.setApp app) { c with app := app } := by
  obtain ⟨lib, t, re⟩ := s
  obtain ⟨rfl, ht⟩ := h
  exact ⟨rfl, ht⟩

theorem bare_eq_none : c.bare.requestHtab = none ↔ c.requestHtab = none :=
  Option.map_eq_none_iff

/-- `write_in_file` does not look at the table. -/
theorem writeInFile_bare (b : Buf) :
    Capture.writeInFile E c.bare b = (Capture.writeInFile E c b).map Capture.bare := by
  have hflag : c.bare.activeDump = c.activeDump := rfl
  have hhist : c.bare.hist = c.hist := rfl
  unfold Capture.writeInFile
  rw [hflag]
  cases c.activeDump with
  | none => rfl
  | some v =>
    dsimp only
    rw [hhist]
    by_cases h0 : v = 0
    · rw [if_pos h0, if_pos h0]
      rfl
    · rw [if_neg h0, if_neg h0]
      by_cases hopen : (E.access c.hist.length).fopen < 0
      · rw [if_pos hopen, if_pos hopen]
        rfl
      · rw [if_neg hopen, if_neg hopen]
        rfl

theorem initMPIre_bare : Capture.initMPIre E c.bare = (Capture.initMPIre E c).map Capture.bare := by
  unfold Capture.initMPIre
  cases E.mpireRank with
  | none => rfl
  | some r =>
    dsimp only
    by_cases hr : E.rank worldComm = r
    · rw [if_pos hr, if_pos hr]
      cases E.nprocsOpens <;> rfl
    · rw [if_neg hr, if_neg hr]
      rfl

theorem writeInFile_table {c' : Capture} {b : Buf} (h : Capture.writeInFile E c b = some c') :
    c'.requestHtab = c.requestHtab := by
  rcases Capture.writeInFile_some h with ⟨-, rfl⟩ | ⟨-, -, rfl⟩
  · rfl
  · rfl

theorem receive_table {c' : Capture} {ps : List Addr} {dump : Bool} {b : Buf}
    (h : Capture.receive E c ps dump b = some c') : c'.requestHtab = c.requestHtab := by
  unfold Capture.receive at h
  cases dump with
  | false =>
    cases h
    rfl
  | true =>
    have ht := writeInFile_table (c := { c with app := pmpiReceive E.toWorld c.app ps }) h
    exact ht

theorem receive_bare (ps : List Addr) (dump : Bool) (b : Buf) :
    Capture.receive E c.bare ps dump b = (Capture.receive E c ps dump b).map Capture.bare := by
  unfold Capture.receive
  cases dump with
  | false => rfl
  | true =>
    have hw := writeInFile_bare (E := E) (c := { c with app := pmpiReceive E.toWorld c.app ps }) b
    exact hw

/-- A hook that leaves the table alone. -/
theorem Links.keep (h : Links A E s c) {x y : Option Capture} (hx : x = y.map Capture.bare)
    (ht : ∀ c', y = some c' → c'.requestHtab = c.requestHtab) :
    Option.Rel (Links A E) (x.bind fun lib => some { s with lib := lib }) y := by
  subst hx
  cases y with
  | none => exact .none
  | some c' =>
    refine .some ⟨rfl, ?_⟩
    rw [ht c' rfl]
    exact h.table

theorem Links.init (h : Links A E s c) :
    Option.Rel (Links A E) (perform A E s .init) (Capture.perform E c .init) := by
  obtain ⟨lib, t, re⟩ := s
  obtain ⟨rfl, ps, hs⟩ := h
  show Option.Rel _ ((Capture.initMPIre E { c with app := c.app.tick E.toWorld }.bare).bind _)
    (Capture.initMPIre E { c with app := c.app.tick E.toWorld })
  rw [initMPIre_bare]
  cases hi : Capture.initMPIre E { c with app := c.app.tick E.toWorld } with
  | none => exact .none
  | some c' =>
    obtain ⟨r, hr, hcase⟩ := Capture.initMPIre_some hi
    rw [Option.map_some, Option.bind_some, hr]
    rcases hcase with ⟨hw, -, rfl⟩ | ⟨hw, rfl⟩
    · rw [if_pos (congrArg some hw.symm)]
      exact .some ⟨rfl, 0, stands_init _ _⟩
    · rw [if_neg fun he => hw (Option.some.inj he).symm]
      exact .some ⟨rfl, ps, hs⟩

theorem Links.register (hA : A.Rises) (h : Links A E s c) {b : Buf} {a : Addr}
    (hroom : s.requests.mallocs < A.blocks ∧ s.requests.CanGrow A)
    (hhash : s.rehashes = true ∨ callsRehash A s.requests = false) :
    Option.Rel (Links A E) (register A E s b a) (Capture.register E c b a) := by
  obtain ⟨lib, t, re⟩ := s
  obtain ⟨rfl, ps, hs⟩ := h
  unfold LinkedCapture.register Capture.register
  cases hc : c.requestHtab with
  | none =>
    rw [if_pos (bare_eq_none.2 hc)]
    exact .none
  | some ht =>
    have hcalls : ¬(re = false ∧ callsRehash A t = true) := by
      rintro ⟨hre, hcalls⟩
      rcases hhash with hre' | hno
      · exact Bool.false_ne_true (hre.symm.trans hre')
      · exact Bool.false_ne_true (hno.symm.trans hcalls)
    rw [if_neg fun hn => Option.some_ne_none ht (hc.symm.trans (bare_eq_none.1 hn)), if_neg hcalls]
    rw [hc] at hs
    show Option.Rel _ ((addRequest A E.hashPointer t b a).bind _)
      ((MPIre.addRequest E.hashPointer ht b a).bind _)
    refine rel_bind (hs.addRequest_rel hA hroom.1 hroom.2 b a) fun t' ht' hst => .some ⟨?_, hst⟩
    show c.bare = { c.bare with requestHtab := some [] }
    unfold Capture.bare
    rw [hc]
    rfl

theorem Links.irecv (hA : A.Rises) (h : Links A E s c) {l : Lang} {b : Buf} {comm : Comm} {a : Addr}
    (hroom : E.rank comm = s.lib.mpireRank → s.requests.mallocs < A.blocks ∧ s.requests.CanGrow A)
    (hhash : E.rank comm = s.lib.mpireRank →
      s.rehashes = true ∨ callsRehash A s.requests = false) :
    Option.Rel (Links A E) (irecv A E l s b comm a) (Capture.irecv l E c b comm a) := by
  have hrank : s.lib.mpireRank = c.mpireRank := by rw [h.lib]; rfl
  have hpost : ∀ {s' : LinkedCapture} {c' : Capture}, Links A E s' c' → Option.Rel (Links A E)
      (some (s'.setApp (pmpiPostVar E.toWorld s'.lib.app l a (some b))))
      (some { c' with app := pmpiPostVar E.toWorld c'.app l a (some b) }) := fun {s' c'} h' => by
    have happ : s'.lib.app = c'.app := by rw [h'.lib]; rfl
    rw [happ]
    exact .some (h'.set_app _)
  unfold LinkedCapture.irecv Capture.irecv
  rw [← hrank]
  by_cases hr : E.rank comm = s.lib.mpireRank
  · rw [if_pos hr, if_pos hr]
    exact rel_bind (h.register hA (hroom hr) (hhash hr)) fun _ _ h' => hpost h'
  · rw [if_neg hr, if_neg hr]
    exact hpost h

/-- The loop of a wait, whose lookups are by the address it deletes or find nothing. -/
theorem Links.drain (h : Links A E s c) {key : Addr → Addr} {as : List Addr}
    (hkey : key = id ∨ (E.rank worldComm = s.lib.mpireRank →
      ∀ a ∈ as, getRequest E.hashPointer s.requests (key a) = some none)) :
    Option.Rel (Links A E)
      (drain E s fun x =>
        as.foldlM (fun x a => settle E.hashPointer (Capture.writeInFile E) (key a) a x) x)
      (Capture.drain E c fun x =>
        as.foldlM (fun x a => MPIre.settle E.hashPointer (Capture.writeInFile E) (key a) a x) x) := by
  obtain ⟨lib, t, re⟩ := s
  obtain ⟨rfl, ps, hs⟩ := h
  unfold LinkedCapture.drain Capture.drain
  by_cases hr : E.rank worldComm = c.mpireRank
  swap
  · rw [if_neg hr, if_neg (show ¬ E.rank worldComm = c.bare.mpireRank from hr)]
    exact .some ⟨rfl, ps, hs⟩
  rw [if_pos hr, if_pos (show E.rank worldComm = c.bare.mpireRank from hr)]
  cases hc : c.requestHtab with
  | none =>
    rw [if_pos (bare_eq_none.2 hc)]
    exact .none
  | some ht =>
    rw [if_neg fun hn => Option.some_ne_none ht (hc.symm.trans (bare_eq_none.1 hn))]
    rw [hc] at hs
    -- the library's own table is not looked at while the loop runs
    have hloop : Option.Rel
        (fun x y => (x.1 = y.1.bare ∧ y.1.requestHtab = some ht) ∧
          ∃ ps, Stands A E.hashPointer ps x.2 y.2)
        (as.foldlM (fun x a => settle E.hashPointer (Capture.writeInFile E) (key a) a x)
          (c.bare, t))
        (as.foldlM (fun x a => MPIre.settle E.hashPointer (Capture.writeInFile E) (key a) a x)
          (c, ht)) := by
      rcases hkey with rfl | hmiss
      · refine settleAll_rel (R := fun (l c : Capture) => l = c.bare ∧ c.requestHtab = some ht)
          (fun l c b hlc => ?_) (x := (c.bare, t)) (y := (c, ht)) ⟨⟨rfl, hc⟩, ps, hs⟩ as
        obtain ⟨rfl, hc⟩ := hlc
        rw [writeInFile_bare]
        cases hw : Capture.writeInFile E c b with
        | none => exact .none
        | some c' => exact .some ⟨rfl, (writeInFile_table hw).trans hc⟩
      · have hmiss := hmiss hr
        have hmiss' : ∀ a ∈ as, ht.view E.hashPointer (key a) = none := fun a ha => by
          obtain ⟨r, hr, hmap, -⟩ := hs.get (key a)
          cases hr.symm.trans (hmiss a ha)
          exact view_eq_none_iff.2 hmap.symm
        rw [settles_miss as hmiss, MPIre.settles_miss as hmiss']
        exact .some ⟨⟨rfl, hc⟩, ps, hs⟩
    rw [Option.bind_eq_bind, Option.bind_eq_bind, Option.bind_some]
    refine rel_bind hloop fun x y hxy => ?_
    obtain ⟨⟨hl, hy⟩, hst⟩ := hxy
    refine .some ⟨?_, hst⟩
    show x.1 = { y.1.bare with requestHtab := some [] }
    rw [hl]
    unfold Capture.bare
    rw [hy]
    rfl

/-- `mpi_alltoallv_` receives or faults. -/
theorem alltoallvAction_cases (rank : Int) (recvbuf : Addr) (t : Datatype) (comm : Comm)
    (rc rd : Option (Nat → Int)) :
    Capture.alltoallvAction E rank recvbuf t comm rc rd = .fault ∨
      ∃ ps dump b, Capture.alltoallvAction E rank recvbuf t comm rc rd = .receive ps dump b := by
  unfold Capture.alltoallvAction
  split
  · exact .inr ⟨_, _, _, rfl⟩
  · exact .inl rfl

/-- The lookups of a loop are by address, but for the C `MPI_Waitall`. -/
theorem action_key {p : App} {rank : Int} {k : Call} {app : App} {key : Addr → Addr}
    {as : List Addr} (h : Capture.callAction E p rank k = .drain app key as) :
    key = id ∨ ∃ count array, k = .waitall .c count array ∧ as = slots .c array count ∧
      key = (effect E.toWorld p (.waitall .c count array)).reqs := by
  cases k with
  | wait l a =>
    cases h
    exact .inl rfl
  | waitall l count array =>
    cases l with
    | c =>
      cases h
      exact .inr ⟨count, array, rfl, rfl, rfl⟩
    | fortran =>
      cases h
      exact .inl rfl
  | alltoallv l recvbuf rc rd t comm =>
    have hcases := alltoallvAction_cases (E := E) rank recvbuf t comm
    cases l with
    | c =>
      replace h : Capture.alltoallvAction E rank recvbuf t comm (some rc) (some rd) = _ := h
      rcases hcases (some rc) (some rd) with hf | ⟨_, _, _, hr⟩
      · cases hf.symm.trans h
      · cases hr.symm.trans h
    | fortran =>
      replace h : Capture.alltoallvAction E rank recvbuf t comm (E.deref rc) (E.deref rd) = _ := h
      rcases hcases (E.deref rc) (E.deref rd) with hf | ⟨_, _, _, hr⟩
      · cases hf.symm.trans h
      · cases hr.symm.trans h
  | _ => cases h

theorem action_post {p : App} {rank : Int} {k : Call} {l : Lang} {b : Buf} {comm : Comm} {a : Addr}
    (h : Capture.callAction E p rank k = .post l b comm a) : k = .irecv l b comm a := by
  cases k with
  | irecv l b comm a =>
    cases h
    rfl
  | waitall l count array => cases l <;> cases h
  | alltoallv l recvbuf rc rd t comm' =>
    have hcases := alltoallvAction_cases (E := E) rank recvbuf t comm'
    cases l with
    | c =>
      replace h : Capture.alltoallvAction E rank recvbuf t comm' (some rc) (some rd) = _ := h
      rcases hcases (some rc) (some rd) with hf | ⟨_, _, _, hr⟩
      · cases hf.symm.trans h
      · cases hr.symm.trans h
    | fortran =>
      replace h : Capture.alltoallvAction E rank recvbuf t comm' (E.deref rc) (E.deref rd) = _ := h
      rcases hcases (E.deref rc) (E.deref rd) with hf | ⟨_, _, _, hr⟩
      · cases hf.symm.trans h
      · cases hr.symm.trans h
  | _ => cases h

/-- The step lemma. -/
theorem Links.step (hA : A.Rises) (h : Links A E s c) {k : Call} (hroom : HasRoom A E s k)
    (hhash : CanHash A E s k) :
    Option.Rel (Links A E) (step A E s k) (Capture.step E c k) := by
  have happ : s.lib.app = c.app := by rw [h.lib]; rfl
  have hrank : s.lib.mpireRank = c.mpireRank := by rw [h.lib]; rfl
  rw [Capture.step_perform, ← happ, ← hrank]
  unfold LinkedCapture.step
  cases hact : Capture.callAction E s.lib.app s.lib.mpireRank k with
  | init => exact h.init
  | finalize =>
    obtain ⟨hlib, -⟩ := h
    refine .some ⟨?_, 0, stands_init _ _⟩
    rw [hlib]
    rfl
  | answer app =>
    obtain ⟨hlib, hs⟩ := h
    refine .some ⟨?_, hs⟩
    rw [hlib]
    rfl
  | receive ps dump b =>
    refine h.keep ?_ fun c' hc' => receive_table hc'
    rw [h.lib]
    exact receive_bare ps dump b
  | post l b comm a =>
    obtain rfl := action_post hact
    exact h.irecv hA hroom hhash
  | drain app key as =>
    refine (h.set_app app).drain ?_
    rcases action_key hact with hid | ⟨count, array, rfl, rfl, rfl⟩
    · exact .inl hid
    · exact .inr hroom
  | fault => exact .none

theorem canHash (hs : s.rehashes = true) {k : Call} : CanHash A E s k := by
  cases k with
  | irecv l b comm a => exact fun _ => .inl hs
  | _ => trivial

theorem register_rehashes {s' : LinkedCapture} {b : Buf} {a : Addr}
    (h : LinkedCapture.register A E s b a = some s') : s'.rehashes = s.rehashes := by
  unfold LinkedCapture.register at h
  split at h
  · cases h
  · split at h
    · cases h
    · obtain ⟨t, -, h⟩ := Option.bind_eq_some_iff.1 h
      cases h
      rfl

/-- A hash function is not taken away. -/
theorem step_rehashes {s' : LinkedCapture} {k : Call} (hs : s.rehashes = true)
    (h : LinkedCapture.step A E s k = some s') : s'.rehashes = true := by
  unfold LinkedCapture.step at h
  generalize Capture.callAction E s.lib.app s.lib.mpireRank k = act at h
  have hkeep : ∀ (x : Option Capture) (t : Requests), (x.bind fun lib =>
      some ({ s with lib := lib, requests := t } : LinkedCapture)) = some s' →
        s'.rehashes = true := by
    intro x t hx
    obtain ⟨lib, -, hx⟩ := Option.bind_eq_some_iff.1 hx
    cases hx
    exact hs
  cases act with
  | init =>
    obtain ⟨lib, -, h⟩ := Option.bind_eq_some_iff.1 h
    split at h
    · cases h
      rfl
    · cases h
      exact hs
  | finalize => exact hkeep (Capture.mpiFinalize E s.lib) s.requests.cleared h
  | answer app => exact hkeep (Capture.perform E s.lib (.answer app)) s.requests h
  | receive ps dump b => exact hkeep (Capture.perform E s.lib (.receive ps dump b)) s.requests h
  | fault => exact hkeep (Capture.perform E s.lib .fault) s.requests h
  | post l b comm a =>
    have h : irecv A E l s b comm a = some s' := h
    unfold LinkedCapture.irecv at h
    split at h
    · obtain ⟨m, hm, h⟩ := Option.bind_eq_some_iff.1 h
      cases h
      exact (register_rehashes hm).trans hs
    · cases h
      exact hs
  | drain app key as =>
    unfold LinkedCapture.perform LinkedCapture.drain at h
    dsimp only at h
    split at h
    · split at h
      · cases h
      · obtain ⟨x, -, h⟩ := Option.bind_eq_some_iff.1 h
        cases h
        exact hs
    · cases h
      exact hs

theorem Links.event (hA : A.Rises) (h : Links A E s c) {ev : Event} (hroom : EventRoom A E s ev) :
    Option.Rel (Links A E) (event A E s ev) (Capture.event E c ev) := by
  cases ev with
  | call k => exact h.step hA hroom.1 hroom.2
  | compute f | setenv v | copy dst src =>
    obtain ⟨hlib, hs⟩ := h
    refine .some ⟨?_, hs⟩
    rw [hlib]
    rfl

/-- The run lemma. -/
theorem run_links (hA : A.Rises) (h : Links A E s c) {evs : List Event}
    (hroom : Along (LinkedCapture.event A E) (EventRoom A E) s evs) :
    Option.Rel (Links A E) (run (LinkedCapture.event A E) s evs) (run (Capture.event E) c evs) :=
  run_rel_along (fun _ _ _ h hroom => h.event hA hroom) h hroom

/-- **The linked capture library is the library.** On any process of the job and in any run,
while there is memory for the table and nothing in it to hash without a function, it writes the
records that the library over the bag writes, leaves the application the same, and exits with
it. -/
theorem run_captured (hA : A.Rises) (mem : Mem) (reqs : Addr → Int) (dir : Dir) {evs : List Event}
    (hroom : Along (LinkedCapture.event A E) (EventRoom A E) (boot E mem reqs dir) evs) :
    (run (LinkedCapture.event A E) (boot E mem reqs dir) evs).map lib =
      (run (Capture.event E) (.boot E mem reqs dir) evs).map Capture.bare := by
  have hrel := run_links hA (links_boot mem reqs dir) hroom
  revert hrel
  generalize run (LinkedCapture.event A E) _ _ = x
  generalize run (Capture.event E) _ _ = y
  rintro (h | _)
  · exact congrArg some h.lib
  · rfl

/-- All requests have one hash; the second one is waited for first, while the dump is off, and
the C `MPI_Waitall` finds null handles. -/
theorem run_captured_waits :
    (run (LinkedCapture.event .small fourProcesses)
      (boot fourProcesses (fun _ => 0) (fun _ => 0) ⟨none, fun _ => none⟩)
      [.call (.init .c), .call (.irecv .c ⟨8, 1, .byte⟩ worldComm 100),
        .call (.irecv .c ⟨9, 1, .byte⟩ worldComm 108), .setenv 0, .call (.wait .c 108),
        .setenv 1, .call (.waitall .c 2 100), .call (.wait .c 100)]).map lib =
    (run (Capture.event fourProcesses)
      (.boot fourProcesses (fun _ => 0) (fun _ => 0) ⟨none, fun _ => none⟩)
      [.call (.init .c), .call (.irecv .c ⟨8, 1, .byte⟩ worldComm 100),
        .call (.irecv .c ⟨9, 1, .byte⟩ worldComm 108), .setenv 0, .call (.wait .c 108),
        .setenv 1, .call (.waitall .c 2 100), .call (.wait .c 100)]).map Capture.bare :=
  run_captured Allocator.small_rises _ _ _ (by decide)

/-- On a process that is not captured the second entry after `MPI_Finalize` would have to move
the first one. -/
example :
    let E : Env := .plain (fun comm => if comm = selfComm then 0 else 1) (fun _ => 2) 0
    (run (LinkedCapture.event .small E) (boot E (fun _ => 0) (fun _ => 0) ⟨none, fun _ => none⟩)
      [.call (.init .c), .call (.finalize .c), .call (.irecv .c ⟨8, 2, .byte⟩ selfComm 100),
        .call (.irecv .c ⟨8, 2, .byte⟩ selfComm 108)]).isNone := by
  decide

end LinkedCapture

end Linked

end MPIre

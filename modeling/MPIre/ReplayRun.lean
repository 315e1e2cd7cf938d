import MPIre.Library.Run
import MPIre.ReplayStep
/-
# Whole runs of the replay library

What holds along any run over the hooked symbols of the replay library, those no
captured call binds to included. Each hook comes down to one `Action`, chosen by rank
and size (`hook_eq`), so what all hooks have in common is proved by cases on it.

* `hook_keeps`: a property of what the library owns is kept by every hook if
  `read_in_file` and `MPI_Init` keep it.
* `hook_sound`: the table stays sound.
* `run_site`: rank, size, path and log directory are those of `MPI_Init`.
* `Related.perform`: two libraries stay related in what they do without MPI if reading a
  record keeps them so.
-/
namespace MPIre
open Gather Run

namespace Replay

/-- The application from `MPI_Init` on. -/
def exec (E : Env) (mem : Mem) (dir : Dir) (hs : List Hook) : Option Replay :=
  (mpiInit E (boot mem dir)).bind fun r => run (hook E) r hs

variable {E : Env} {s s' : Replay}

/-! ## What a hook comes down to -/

inductive Action where
  | init
  | finalize
  | answer (out : Int)
  | post (b : Buf) (request : Addr)
  | receive (load : Bool) (b : Buf)
  | drain (requests : List Addr)
  | fallThrough (b : Buf)
  | fault

def perform (E : Env) (s : Replay) : Action → Option Replay
  | .init => mpiInit E s
  | .finalize => mpiFinalize E s
  | .answer out => output s out
  | .post b a => mpiIrecv E s b a
  | .receive load b => receive E s load b
  | .drain as => drain s (settleAll E.hashPointer (readInFile E) as)
  | .fallThrough b => fallThrough E s b
  | .fault => none

/-- A hook that only returns loads nothing. -/
def Action.nothing : Action := .receive false ⟨0, 0, .byte⟩

/-- The arrays of `mpi_alltoallv_` decide whether it faults. -/
def alltoallvAction (E : Env) (size : Int) (recvbuf : Addr) (rc rd : Nat → Int) (t : Datatype) :
    Action :=
  match E.deref rc, E.deref rd with
  | some rc', some _ => .receive true ⟨recvbuf, totalRecvcounts rc' size, t⟩
  | _, _ => .fault

def Hook.action (E : Env) (rank size : Int) : Hook → Action
  | .call (.init _) => .init
  | .call (.finalize _) => .finalize
  | .call (.send _) | .call (.isend ..) | .call (.barrier _) | .abort _ | .start _ => .nothing
  | .call (.recv _ b _) | .call (.allreduce _ b _) => .receive true b
  | .call (.irecv _ b _ a) => .post b a
  | .call (.wait _ a) => .drain [a]
  | .call (.waitall l count array) => .drain (slots l array count)
  | .call (.bcast _ b root _) => .receive (rank ≠ root) b
  | .call (.alltoall _ b _) => .receive true { b with count := cInt (b.count * size) }
  | .call (.alltoallv .c recvbuf rc _ t _) => .receive true ⟨recvbuf, totalRecvcounts rc size, t⟩
  | .call (.alltoallv .fortran recvbuf rc rd t _) => alltoallvAction E size recvbuf rc rd t
  | .call (.reduce .c b root _) | .reduceNoUnderscore b root => .receive (rank = root) b
  | .call (.reduce .fortran b _ _) => .fallThrough b
  | .finalized _ => .answer 1
  | .commRank _ => .answer rank
  | .commSize _ => .answer size

theorem hook_eq (E : Env) (s : Replay) (h : Hook) :
    hook E s h = perform E s (h.action E s.mpireRank s.mpireSize) := by
  cases h with
  | call c =>
    cases c with
    | wait l a =>
      have hd : drain s (settle E.hashPointer (readInFile E) a a) =
          drain s (settleAll E.hashPointer (readInFile E) [a]) := by
        rw [funext (settleAll_single (readInFile E) a)]
      cases l <;> exact hd
    | alltoallv l recvbuf rc rd t comm =>
      cases l with
      | c => rfl
      | fortran =>
        show mpiAlltoallv_ E s recvbuf rc rd t = perform E s (alltoallvAction ..)
        unfold mpiAlltoallv_ alltoallvAction
        cases E.deref rc with
        | none => rfl
        | some rc' => cases E.deref rd <;> rfl
    | recv l | irecv l | waitall l | bcast l | alltoall l | allreduce l | reduce l => cases l <;> rfl
    | _ => rfl
  | _ => rfl

/-! ## What every hook keeps -/

section keeps

variable {P : Replay → Prop}
  (hf : ∀ s mem now ret out ht, P s →
    P { s with mem := mem, now := now, ret := ret, out := out, requestHtab := ht })
  (hr : ∀ s b s', P s → readInFile E s b = some s' → P s')
  (hi : ∀ s s', P s → mpiInit E s = some s' → P s')
include hf hr

theorem receive_keeps (load : Bool) (b : Buf) (hs : P s) (h : receive E s load b = some s') :
    P s' := by
  cases load with
  | false =>
    cases h
    exact hf s _ _ _ _ _ hs
  | true =>
    obtain ⟨m, hm, h⟩ := Option.bind_eq_some_iff.1 h
    cases h
    exact hf m _ _ _ _ _ (hr s b m hs hm)

theorem drain_keeps {as : List Addr} (hs : P s)
    (h : drain s (settleAll E.hashPointer (readInFile E) as) = some s') : P s' := by
  obtain ⟨y, hy, h⟩ := Option.bind_eq_some_iff.1 h
  cases h
  exact hf y.1 _ _ _ _ _ (settles_keeps hr as hs hy)

include hi

theorem perform_keeps {act : Action} (hs : P s) (h : perform E s act = some s') : P s' := by
  cases act with
  | init => exact hi s s' hs h
  | receive load b => exact receive_keeps hf hr load b hs h
  | drain as => exact drain_keeps hf hr hs h
  | post b a =>
    obtain ⟨ht, -, h⟩ := Option.bind_eq_some_iff.1 h
    cases h
    exact hf s _ _ _ _ _ hs
  | finalize | answer out | fallThrough b =>
    cases h
    exact hf s _ _ _ _ _ hs
  | fault => cases h

/-- A property of what the application does not see is kept by every hook if
`read_in_file` and `MPI_Init` keep it. -/
theorem hook_keeps {h : Hook} (hs : P s) (hh : hook E s h = some s') : P s' := by
  rw [hook_eq] at hh
  exact perform_keeps hf hr hi hs hh

end keeps

/-! ## The table stays sound -/

theorem readInFile_table {b : Buf} (h : readInFile E s b = some s') :
    s'.requestHtab = s.requestHtab := by
  obtain ⟨-, rfl⟩ := readInFile_some h
  rfl

theorem perform_sound {act : Action} (hs : s.requestHtab.Sound E.hashPointer)
    (h : perform E s act = some s') : s'.requestHtab.Sound E.hashPointer := by
  cases act with
  | init =>
    rcases mpiInit_some h with ⟨-, rfl⟩ | ⟨-, r, n, -, -, rfl⟩
    · exact hs
    · exact Htable.sound_nil
  | finalize =>
    cases h
    exact Htable.sound_nil
  | receive load b =>
    cases load with
    | false =>
      cases h
      exact hs
    | true =>
      obtain ⟨m, hm, h⟩ := Option.bind_eq_some_iff.1 h
      cases h
      have ht := readInFile_table hm
      exact ht ▸ hs
  | drain as =>
    obtain ⟨y, hy, h⟩ := Option.bind_eq_some_iff.1 h
    cases h
    exact settles_sound as hs hy
  | post b a =>
    obtain ⟨ht, hadd, h⟩ := Option.bind_eq_some_iff.1 h
    cases h
    obtain ⟨hv, rfl⟩ := addRequest_some hadd
    exact hs.posted hv
  | answer out | fallThrough b =>
    cases h
    exact hs
  | fault => cases h

theorem hook_sound {h : Hook} (hs : s.requestHtab.Sound E.hashPointer)
    (hh : hook E s h = some s') : s'.requestHtab.Sound E.hashPointer := by
  rw [hook_eq] at hh
  exact perform_sound hs hh

/-! ## Where the library is -/

/-- Set up by `MPI_Init` as `r₀` was. -/
structure SiteOf (r₀ s : Replay) : Prop where
  rank : s.mpireRank = r₀.mpireRank
  size : s.mpireSize = r₀.mpireSize
  path : s.inputPath = r₀.inputPath
  dir : s.dir = r₀.dir
  initialized : s.initialized = true

theorem hook_site {r₀ : Replay} {h : Hook} (hs : SiteOf r₀ s) (hh : hook E s h = some s') :
    SiteOf r₀ s' := by
  refine hook_keeps (E := E) (P := SiteOf r₀) ?_ ?_ ?_ hs hh
  · intro s mem now ret out ht hs
    exact ⟨hs.rank, hs.size, hs.path, hs.dir, hs.initialized⟩
  · intro s b s' hs hb
    obtain ⟨-, rfl⟩ := readInFile_some hb
    exact ⟨hs.rank, hs.size, hs.path, hs.dir, hs.initialized⟩
  · intro s s' hs hi
    unfold mpiInit at hi
    rw [if_pos hs.initialized] at hi
    cases hi
    exact ⟨hs.rank, hs.size, hs.path, hs.dir, hs.initialized⟩

/-- Any run over the hooks: the table is sound, and the library is where it was set up. -/
theorem run_site {r₀ : Replay} {hs : List Hook} (h0 : SiteOf r₀ r₀)
    (ht : r₀.requestHtab.Sound E.hashPointer) (hrun : run (hook E) r₀ hs = some s) :
    SiteOf r₀ s ∧ s.requestHtab.Sound E.hashPointer :=
  run_safe (I := fun s => SiteOf r₀ s ∧ s.requestHtab.Sound E.hashPointer)
    (fun _ _ _ hI _ hh => ⟨hook_site hI.1 hh, hook_sound hI.2 hh⟩) ⟨h0, ht⟩
    (along_true r₀ hs) hrun

/-! ## Two libraries -/

/-- The action reaches MPI. -/
def Action.reaches : Action → Bool
  | .init | .finalize | .fallThrough _ => true
  | _ => false

/-- What a relation between two libraries has to allow for the hooks to keep it. -/
structure Related (E₁ E₂ : Env) (R : Replay → Replay → Prop) : Prop where
  hash : E₂.hashPointer = E₁.hashPointer
  table : ∀ {r f : Replay}, R r f → f.requestHtab = r.requestHtab
  returned : ∀ {r f : Replay} (ht : Htable), R r f →
    R { r with requestHtab := ht, ret := mpiSuccess } { f with requestHtab := ht, ret := mpiSuccess }
  answered : ∀ {r f : Replay} (out : Int), R r f →
    R { r with ret := mpiSuccess, out := out } { f with ret := mpiSuccess, out := out }
  read : ∀ {r f : Replay} (b : Buf), R r f →
    Option.Rel R (readInFile E₁ r b) (readInFile E₂ f b)

section related

variable {E₁ E₂ : Env} {R : Replay → Replay → Prop} {r f : Replay}

theorem Related.success (hR : Related E₁ E₂ R) (h : R r f) : Option.Rel R r.success f.success := by
  have hs := hR.returned r.requestHtab h
  have ht := hR.table h
  have hf : { f with requestHtab := r.requestHtab, ret := mpiSuccess } =
      { f with ret := mpiSuccess } := by rw [← ht]
  rw [hf] at hs
  exact .some hs

theorem Related.receive (hR : Related E₁ E₂ R) (h : R r f) (load : Bool) (b : Buf) :
    Option.Rel R (receive E₁ r load b) (receive E₂ f load b) := by
  cases load with
  | false => exact hR.success h
  | true => exact rel_bind (hR.read b h) fun _ _ h => hR.success h

theorem Related.settle (hR : Related E₁ E₂ R) {x y : Replay × Htable} (h : R x.1 y.1)
    (ht : x.2 = y.2) (a : Addr) :
    Option.Rel (fun x y => R x.1 y.1 ∧ x.2 = y.2)
      (settle E₁.hashPointer (readInFile E₁) a a x)
      (settle E₂.hashPointer (readInFile E₂) a a y) := by
  obtain ⟨r, ht₁⟩ := x
  obtain ⟨f, ht₂⟩ := y
  obtain rfl : ht₁ = ht₂ := ht
  rw [hR.hash]
  unfold MPIre.settle
  cases getRequest E₁.hashPointer ht₁ a with
  | none => exact .some ⟨h, rfl⟩
  | some e =>
    refine rel_bind (hR.read e.toBuf h) fun r' f' h' => ?_
    cases delRequest ht₁ (E₁.hashPointer a) e with
    | none => exact .none
    | some ht => exact .some ⟨h', rfl⟩

theorem Related.drain (hR : Related E₁ E₂ R) (h : R r f) (as : List Addr) :
    Option.Rel R (drain r (settleAll E₁.hashPointer (readInFile E₁) as))
      (drain f (settleAll E₂.hashPointer (readInFile E₂) as)) := by
  have hloop : Option.Rel (fun x y => R x.1 y.1 ∧ x.2 = y.2)
      (settleAll E₁.hashPointer (readInFile E₁) as (r, r.requestHtab))
      (settleAll E₂.hashPointer (readInFile E₂) as (f, f.requestHtab)) :=
    run_rel (p := fun _ => True) (fun _ _ a hx _ => hR.settle hx.1 hx.2 a)
      ⟨h, (hR.table h).symm⟩ fun _ _ => trivial
  refine rel_bind hloop fun x y hxy => ?_
  obtain ⟨s, ht⟩ := x
  obtain ⟨g, ht'⟩ := y
  obtain ⟨hs, rfl⟩ : R s g ∧ ht = ht' := hxy
  have hret := hR.returned ht hs
  exact .some hret

theorem Related.perform (hR : Related E₁ E₂ R) (h : R r f) {act : Action}
    (ha : act.reaches = false) : Option.Rel R (perform E₁ r act) (perform E₂ f act) := by
  cases act with
  | init | finalize | fallThrough b => cases ha
  | answer out => exact .some (hR.answered out h)
  | receive load b => exact hR.receive h load b
  | drain as => exact hR.drain h as
  | post b a =>
    show Option.Rel _ (mpiIrecv E₁ r b a) (mpiIrecv E₂ f b a)
    unfold mpiIrecv
    rw [hR.hash, hR.table h]
    cases addRequest E₁.hashPointer r.requestHtab b a with
    | none => exact .none
    | some ht =>
      have hret := hR.returned ht h
      exact .some hret
  | fault => exact .none

end related

end Replay

end MPIre

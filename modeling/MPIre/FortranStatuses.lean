import MPIre.Library.Strided
import MPIre.Lockstep
/-
# The statuses of the Fortran `mpi_waitall_`

A Fortran status is `MPI_STATUS_SIZE` integers, and `array_of_statuses` has as many for
each request. `mpi_waitall_` takes `&array_of_statuses[i]`, the `i`-th integer, for the
`i`-th status, on the way in (capture:319) and on the way out (343-345). Each status but
the last loses its end to the next one, and the end of the array is never written, so
the statuses arrive exactly if there is at most one (`returnsStatuses_iff`).

| here | there |
| --- | --- |
| `S` | `MPI_STATUS_SIZE` |
| `Statuses.statusF2c`, `Statuses.statusC2f` | `MPI_Status_f2c`, `MPI_Status_c2f` |
| `Statuses.completed` | what `PMPI_Waitall` makes of `n` statuses |
| `Statuses.afterWaitall_` | `array_of_statuses` after `mpi_waitall_`, from the `int` it was given |
| `Statuses.afterPlain` | the same array after MPI's own `mpi_waitall_` |

`mpi_recv_` (220-229) and `mpi_wait_` (253-276) convert one status in the same way.
-/
namespace MPIre
open Strided

/-- The statuses of an MPI implementation. -/
structure Statuses (σ : Type) (S : Nat) where
  statusF2c : (Fin S → Int) → σ
  statusC2f : σ → Fin S → Int
  completed : (n : Nat) → (Fin n → σ) → Fin n → σ

variable {σ : Type} {S : Nat}

/-- `c_status` after `PMPI_Waitall`. -/
def Statuses.cStatus (T : Statuses σ S) (n : Nat) (arrayOfStatuses : Int → Int) : Fin n → σ :=
  T.completed n fun i => T.statusF2c (get arrayOfStatuses i.val)

def Statuses.afterWaitall_ (T : Statuses σ S) (n : Nat) (arrayOfStatuses : Int → Int) : Int → Int :=
  putAll 1 arrayOfStatuses fun i => T.statusC2f (T.cStatus n arrayOfStatuses i)

def Statuses.afterPlain (T : Statuses σ S) (n : Nat) (arrayOfStatuses : Int → Int) : Int → Int :=
  putAll S arrayOfStatuses fun i => T.statusC2f (T.completed n
    (fun j => T.statusF2c (get arrayOfStatuses ((j.val * S : Nat) : Int))) i)

/-- `mpi_waitall_` with its third argument. -/
def Capture.mpiWaitallStatuses_ (E : Env) (T : Statuses σ S) (s : Capture) (count : Nat)
    (arrayOfRequests : Addr) (arrayOfStatuses : Int → Int) : Option (Capture × (Int → Int)) := do
  let s ← mpiWaitall_ E s count arrayOfRequests
  pure (s, T.afterWaitall_ count arrayOfStatuses)

/-- Whatever the array held, slot `j` holds the Fortran form of status `j` when the call
returns, and the integers outside the slots are left alone. -/
def ReturnsStatuses (E : Env) (T : Statuses σ S) (s : Capture) (count : Nat)
    (arrayOfRequests : Addr) : Prop :=
  ∀ (a a' : Int → Int) (s' : Capture),
    Capture.mpiWaitallStatuses_ E T s count arrayOfRequests a = some (s', a') →
    (∀ j : Fin count, get a' ((j.val * S : Nat) : Int) = T.statusC2f (T.cStatus count a j)) ∧
      ∀ x, x < 0 ∨ ((count * S : Nat) : Int) ≤ x → a' x = a x

/-- Statuses that follow each other without a gap do not reach past the last slot. -/
theorem slot_end {n : Nat} (i : Fin n) : i.val * S + S ≤ n * S := by
  have h := Nat.mul_le_mul_right S (Nat.succ_le_of_lt i.isLt)
  rw [Nat.succ_mul] at h
  exact h

/-- With two statuses of two integers or more, no status taken an integer apart gets to
the last integer. -/
theorem last_reach {n : Nat} (hS : 2 ≤ S) (hn : 2 ≤ n) (i : Fin n) :
    (i.val : Int) + S ≤ (n * S : Nat) - 1 := by
  obtain ⟨k, rfl⟩ := Nat.exists_eq_add_of_le hn
  have hi := i.isLt
  rw [Nat.add_mul]
  have hk : k ≤ k * S := Nat.le_mul_of_pos_right k (by omega)
  omega

theorem last_slot {n : Nat} (hS : 1 ≤ S) (hn : 1 ≤ n) :
    (((n - 1) * S : Nat) : Int) + ((S - 1 : Nat) : Int) = (n * S : Nat) - 1 := by
  obtain ⟨m, rfl⟩ := Nat.exists_eq_add_of_le' hn
  rw [Nat.add_sub_cancel, Nat.add_mul, Nat.one_mul]
  omega

/-- That integer is not read. -/
theorem Statuses.cStatus_congr (T : Statuses σ S) {n : Nat} (hS : 2 ≤ S) (hn : 2 ≤ n)
    {a a' : Int → Int} (h : ∀ x : Int, x ≠ (n * S : Nat) - 1 → a x = a' x) :
    T.cStatus n a = T.cStatus n a' := by
  unfold cStatus
  congr 1
  funext i
  congr 1
  refine get_congr fun x _ hx => h x fun hlast => ?_
  have hi := last_reach hS hn i
  omega

/-- Nor is it written. -/
theorem Statuses.afterWaitall_last (T : Statuses σ S) {n : Nat} (hS : 2 ≤ S) (hn : 2 ≤ n)
    (a : Int → Int) : T.afterWaitall_ n a ((n * S : Nat) - 1) = a ((n * S : Nat) - 1) := by
  refine putAll_out fun i => .inr ?_
  rw [Nat.mul_one]
  exact last_reach hS hn i

/-- The array comes back as it should if there is one status, or none. -/
theorem Statuses.afterWaitall_one (T : Statuses σ S) {n : Nat} (hn : n ≤ 1) (a : Int → Int) :
    (∀ j : Fin n, get (T.afterWaitall_ n a) ((j.val * S : Nat) : Int) =
      T.statusC2f (T.cStatus n a j)) ∧
      ∀ x, x < 0 ∨ ((n * S : Nat) : Int) ≤ x → T.afterWaitall_ n a x = a x := by
  unfold afterWaitall_
  rw [putAll_stride hn 1 S]
  constructor
  · exact putAll_get (Nat.le_refl S) a _
  · intro x hx
    refine putAll_out fun i => ?_
    have hend := slot_end (S := S) i
    omega

/-- One status goes in and comes out where MPI's own binding takes and leaves it. -/
theorem Statuses.afterWaitall_plain (T : Statuses σ S) {n : Nat} (hn : n ≤ 1) (a : Int → Int) :
    T.afterWaitall_ n a = T.afterPlain n a := by
  have hplace : ∀ j : Fin n, j.val * S = j.val := fun j => by
    have hzero : j.val = 0 := by omega
    rw [hzero, Nat.zero_mul]
  unfold afterWaitall_ afterPlain cStatus
  simp only [hplace]
  exact putAll_stride hn 1 S a _

/-- **Statuses.** A call of `mpi_waitall_` that returns returns every status in its slot
if and only if it waits for at most one request. -/
theorem returnsStatuses_iff {E : Env} {T : Statuses σ S} {s : Capture} {count : Nat} {array : Addr}
    (hS : 2 ≤ S) (hret : Capture.mpiWaitall_ E s count array ≠ none) :
    ReturnsStatuses E T s count array ↔ count ≤ 1 := by
  obtain ⟨s', hs'⟩ := Option.ne_none_iff_exists'.1 hret
  have hcall : ∀ a, Capture.mpiWaitallStatuses_ E T s count array a =
      some (s', T.afterWaitall_ count a) := by
    intro a
    unfold Capture.mpiWaitallStatuses_
    rw [hs']
    rfl
  constructor
  · intro h
    by_contra hmany
    have hn : 2 ≤ count := by omega
    let j : Fin count := ⟨count - 1, by omega⟩
    let k : Fin S := ⟨S - 1, by omega⟩
    let last : Int := (count * S : Nat) - 1
    -- the last integer of the last slot holds another value than it should
    let due := T.statusC2f (T.cStatus count (fun _ => 0) j) k
    let a : Int → Int := fun x => if x = last then due + 1 else 0
    have hstatus : T.cStatus count a = T.cStatus count fun _ => 0 :=
      T.cStatus_congr hS hn fun x hx => if_neg hx
    have hslot : T.afterWaitall_ count a (((count - 1) * S : Nat) + (S - 1 : Nat)) =
        T.statusC2f (T.cStatus count a j) k := congrFun ((h a _ s' (hcall a)).1 j) k
    rw [last_slot (by omega) (by omega), T.afterWaitall_last hS hn, hstatus] at hslot
    have ha : a last = due + 1 := if_pos rfl
    have hdue : a last = due := hslot
    omega
  · intro hn a a' s₁ h
    rw [hcall] at h
    cases h
    exact T.afterWaitall_one hn a

/-- A status is a source and a tag; every message comes from 7 with tag 9. -/
def sourceAndTag : Statuses (Int × Int) 2 where
  statusF2c f := (f 0, f 1)
  statusC2f s k := if k = 0 then s.1 else s.2
  completed _ _ _ := (7, 9)

theorem returnsStatuses_one :
    ReturnsStatuses fourProcesses sourceAndTag
      (Capture.start fourProcesses (fun _ => 0) (fun _ => 0) ⟨none, fun _ => none⟩) 1 100 :=
  (returnsStatuses_iff (Nat.le_refl 2) (by decide)).2 (Nat.le_refl 1)

/-- The second slot begins with the tag. -/
theorem returnsStatuses_two :
    ¬ ReturnsStatuses fourProcesses sourceAndTag
      (Capture.start fourProcesses (fun _ => 0) (fun _ => 0) ⟨none, fun _ => none⟩) 2 100 := by
  intro h
  have hslot := congrFun ((h (fun _ => 0) _ _ rfl).1 1) 0
  revert hslot
  decide

end MPIre

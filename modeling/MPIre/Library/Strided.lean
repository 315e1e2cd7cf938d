import Mathlib.Data.List.FinRange
/-
# Records at a stride

Records of `S` cells each in a memory with integer places. `put` stores one, `get` reads
one, and `putAll t` stores record `i` at place `i * t`, in index order. Nothing is
asked of the stride `t`: records closer than `S` overlap, and the later one wins.

The rules: what no record reaches keeps its value (`putAll_out`), and records at least `S`
apart all come back (`putAll_get`).
-/
namespace Strided

variable {β : Type} {S n : Nat}

def get (m : Int → β) (a : Int) : Fin S → β := fun k => m (a + k.val)

def put (m : Int → β) (a : Int) (r : Fin S → β) : Int → β := fun x =>
  if h : a ≤ x ∧ x < a + S then r ⟨(x - a).toNat, by omega⟩ else m x

def putAll (t : Nat) (m : Int → β) (v : Fin n → Fin S → β) : Int → β :=
  (List.finRange n).foldl (fun m i => put m ((i.val * t : Nat) : Int) (v i)) m

theorem put_out {m : Int → β} {a x : Int} {r : Fin S → β} (h : x < a ∨ a + S ≤ x) :
    put m a r x = m x := by
  unfold put
  rw [dif_neg (by omega)]

theorem put_in (m : Int → β) (a : Int) (r : Fin S → β) (k : Fin S) :
    put m a r (a + k.val) = r k := by
  unfold put
  rw [dif_pos (by omega)]
  congr 1
  apply Fin.ext
  show (a + k.val - a).toNat = k.val
  omega

/-- Cells that are read elsewhere do not matter. -/
theorem get_congr {m m' : Int → β} {a : Int} (h : ∀ x, a ≤ x → x < a + S → m x = m' x) :
    (get m a : Fin S → β) = get m' a := by
  funext k
  exact h _ (by omega) (by omega)

theorem puts_out {t : Nat} {v : Fin n → Fin S → β} {x : Int} :
    ∀ (is : List (Fin n)) {m : Int → β},
      (∀ i ∈ is, x < (i.val * t : Nat) ∨ ((i.val * t : Nat) : Int) + S ≤ x) →
      is.foldl (fun m i => put m ((i.val * t : Nat) : Int) (v i)) m x = m x
  | [], _, _ => rfl
  | i :: is, m, h => by
    rw [List.foldl_cons, puts_out is fun j hj => h j (List.mem_cons_of_mem i hj)]
    exact put_out (h i List.mem_cons_self)

theorem putAll_out {t : Nat} {m : Int → β} {v : Fin n → Fin S → β} {x : Int}
    (h : ∀ i : Fin n, x < (i.val * t : Nat) ∨ ((i.val * t : Nat) : Int) + S ≤ x) :
    putAll t m v x = m x :=
  puts_out (List.finRange n) fun i _ => h i

/-- Records that do not overlap are not overwritten. -/
theorem puts_in {t : Nat} (ht : S ≤ t) {v : Fin n → Fin S → β} {i : Fin n} (k : Fin S) :
    ∀ (is : List (Fin n)) {m : Int → β}, is.Nodup → i ∈ is →
      is.foldl (fun m i => put m ((i.val * t : Nat) : Int) (v i)) m
        (((i.val * t : Nat) : Int) + k.val) = v i k
  | j :: is, m, hn, hi => by
    obtain ⟨hj, hn⟩ := List.nodup_cons.1 hn
    rw [List.foldl_cons]
    by_cases hij : i = j
    · subst hij
      rw [puts_out is fun l hl => ?_]
      · exact put_in m _ (v i) k
      · -- another record begins at least `t` cells away
        have hne : l.val ≠ i.val := fun e => hj (Fin.ext e ▸ hl)
        rcases Nat.lt_or_gt_of_ne hne with hlt | hgt
        · have hle := Nat.mul_le_mul_right t (Nat.succ_le_of_lt hlt)
          rw [Nat.succ_mul] at hle
          omega
        · have hle := Nat.mul_le_mul_right t (Nat.succ_le_of_lt hgt)
          rw [Nat.succ_mul] at hle
          omega
    · exact puts_in ht k is hn ((List.mem_cons.1 hi).resolve_left hij)

theorem putAll_get {t : Nat} (ht : S ≤ t) (m : Int → β) (v : Fin n → Fin S → β) (i : Fin n) :
    get (putAll t m v) ((i.val * t : Nat) : Int) = v i :=
  funext fun k => puts_in ht k _ (List.nodup_finRange n) (List.mem_finRange i)

/-- One record has no stride. -/
theorem putAll_stride (hn : n ≤ 1) (t u : Nat) (m : Int → β) (v : Fin n → Fin S → β) :
    putAll t m v = putAll u m v := by
  have hzero : ∀ i : Fin n, i.val = 0 := fun i => by omega
  unfold putAll
  simp only [hzero, Nat.zero_mul]

end Strided

import Mathlib.Algebra.BigOperators.Group.Finset.Basic
import Mathlib.Algebra.Order.BigOperators.Group.Finset
import Mathlib.Data.Multiset.AddSub
import Mathlib.Data.Nat.ModEq
/-
# Linear probing with deletion marks

A table of slots searched in a circle. An entry has a home slot; it is put into the first
slot from its home on that holds no entry, and a search walks from the home up to the first
free slot (`path`). A deletion leaves a mark, so that the walks past it go on. `compact`
takes the marks away: starting after a free slot it visits every slot in turn, frees the
marked ones and puts the entries again, except those that may stay where they are.

`Sound` is the invariant: the walk from the home of an entry meets the entry
(`Sound.mem_path`). `Sound.put`, `Sound.remove`, `Sound.compact` and `Sound.moveAll` say that
the operations keep it, and what they do to the bag of entries.
-/
namespace Probing

variable {ε : Type}

inductive Slot (ε : Type) where
  | free
  | deleted
  | full (e : ε)
deriving DecidableEq, Repr

namespace Slot

def bag : Slot ε → Multiset ε
  | full e => {e}
  | _ => 0

def mark : Slot ε → Nat
  | deleted => 1
  | _ => 0

/-- No entry is in it. -/
def isOpen : Slot ε → Bool
  | full _ => false
  | _ => true

theorem exists_full {x : Slot ε} (h : x.isOpen = false) : ∃ e, x = full e := by
  cases x with
  | full e => exact ⟨e, rfl⟩
  | free | deleted => cases h

theorem bag_of_open {x : Slot ε} (h : x.isOpen = true) : x.bag = 0 := by
  cases x with
  | full e => cases h
  | free | deleted => rfl

end Slot

structure Table (ε : Type) where
  size : Nat
  size_pos : 0 < size
  /-- Only the slots below `size` count. -/
  slot : Nat → Slot ε

namespace Table

variable (t : Table ε)

def next (i : Nat) : Nat := (i + 1) % t.size

def set (i : Nat) (x : Slot ε) : Table ε := { t with slot := Function.update t.slot i x }

/-- The slot `k` places after slot `b`. -/
def off (b k : Nat) : Slot ε := t.slot ((b + k) % t.size)

/-- What a search from slot `b` looks at before it meets a free slot. -/
def path : Nat → Nat → Option (List Nat)
  | 0, _ => none
  | fuel + 1, b =>
    match t.slot b with
    | .free => some []
    | _ => (path fuel (t.next b)).map (b :: ·)

/-- The first slot from `b` on that holds no entry. -/
def place : Nat → Nat → Option Nat
  | 0, _ => none
  | fuel + 1, b => if (t.slot b).isOpen then some b else place fuel (t.next b)

def put (b : Nat) (e : ε) : Option (Table ε) := (t.place t.size b).map fun i => t.set i (.full e)

/-- The turn of `compact` at slot `i`. -/
def resettle (home : ε → Nat) (stays : Nat → ε → Bool) (t : Table ε) (i : Nat) :
    Option (Table ε) :=
  match t.slot i with
  | .free => some t
  | .deleted => some (t.set i .free)
  | .full e => if stays i e then some t else (t.set i .free).put (home e) e

def compact (home : ε → Nat) (stays : Nat → ε → Bool) (start : Nat) : Option (Table ε) :=
  (List.range t.size).foldlM (fun u k => u.resettle home stays ((start + k) % t.size)) t

/-- Put the entry of a slot into a table, if it has one. -/
def move (home : ε → Nat) (t : Table ε) : Slot ε → Option (Table ε)
  | .full e => t.put (home e) e
  | _ => some t

/-- Put all entries of the table into another one. -/
def moveAll (home : ε → Nat) (new : Table ε) : Option (Table ε) :=
  (List.range t.size).foldlM (fun u i => u.move home (t.slot i)) new

def bag : Multiset ε := ∑ i ∈ Finset.range t.size, (t.slot i).bag

def marks : Nat := ∑ i ∈ Finset.range t.size, (t.slot i).mark

/-- The walk from the home of an entry meets the entry. -/
def Sound (home : ε → Nat) : Prop :=
  ∀ i < t.size, ∀ e, t.slot i = .full e →
    ∃ k, (home e + k) % t.size = i ∧ ∀ j ≤ k, t.off (home e) j ≠ .free

variable {t}

@[simp] theorem size_set (i : Nat) (x : Slot ε) : (t.set i x).size = t.size := rfl

@[simp] theorem set_self (i : Nat) (x : Slot ε) : (t.set i x).slot i = x := by simp [set]

theorem set_ne {i j : Nat} (h : j ≠ i) (x : Slot ε) : (t.set i x).slot j = t.slot j := by
  simp [set, h]

/-! ## Counting -/

theorem sum_set {M : Type} [AddCommMonoid M] (f : Slot ε → M) {i : Nat} (hi : i < t.size)
    (x : Slot ε) :
    f (t.slot i) + ∑ j ∈ Finset.range t.size, f ((t.set i x).slot j) =
      f x + ∑ j ∈ Finset.range t.size, f (t.slot j) := by
  have hm : i ∈ Finset.range t.size := Finset.mem_range.2 hi
  rw [← Finset.add_sum_erase _ (fun j => f ((t.set i x).slot j)) hm,
    ← Finset.add_sum_erase _ (fun j => f (t.slot j)) hm, set_self, add_left_comm]
  congr 2
  refine Finset.sum_congr rfl fun j hj => ?_
  rw [set_ne (Finset.ne_of_mem_erase hj)]

theorem mem_bag {e : ε} : e ∈ t.bag ↔ ∃ i < t.size, t.slot i = .full e := by
  unfold bag
  rw [Multiset.mem_sum]
  constructor
  · rintro ⟨i, hi, he⟩
    cases hs : t.slot i with
    | full e' =>
      rw [hs] at he
      obtain rfl := Multiset.mem_singleton.1 he
      exact ⟨i, Finset.mem_range.1 hi, hs⟩
    | free | deleted =>
      rw [hs] at he
      exact absurd he (Multiset.notMem_zero e)
  · rintro ⟨i, hi, hs⟩
    refine ⟨i, Finset.mem_range.2 hi, ?_⟩
    rw [hs]
    exact Multiset.mem_singleton_self e

theorem bag_put {i : Nat} (hi : i < t.size) (ho : (t.slot i).isOpen = true) (e : ε) :
    (t.set i (.full e)).bag = e ::ₘ t.bag := by
  have h := sum_set Slot.bag hi (.full e)
  rw [Slot.bag_of_open ho, zero_add] at h
  exact h

theorem bag_clear {i : Nat} {e : ε} (hi : i < t.size) (hs : t.slot i = .full e) {x : Slot ε}
    (hx : x.isOpen = true) : t.bag = e ::ₘ (t.set i x).bag := by
  have h := sum_set Slot.bag hi x
  rw [Slot.bag_of_open hx, zero_add, hs] at h
  exact h.symm

theorem bag_set_open {i : Nat} (hi : i < t.size) (hs : (t.slot i).isOpen = true) {x : Slot ε}
    (hx : x.isOpen = true) : (t.set i x).bag = t.bag := by
  have h := sum_set Slot.bag hi x
  rw [Slot.bag_of_open hx, Slot.bag_of_open hs, zero_add, zero_add] at h
  exact h

/-- Every slot that is not free counts. -/
theorem exists_free (h : Multiset.card t.bag + t.marks < t.size) :
    ∃ i < t.size, t.slot i = .free := by
  by_contra hno
  push Not at hno
  have hone : ∀ i ∈ Finset.range t.size, 1 ≤ Multiset.card (t.slot i).bag + (t.slot i).mark := by
    intro i hi
    have hne := hno i (Finset.mem_range.1 hi)
    cases hs : t.slot i with
    | free => exact absurd hs hne
    | deleted => exact Nat.le_refl 1
    | full e => exact Nat.le_refl 1
  have hsum := Finset.sum_le_sum hone
  rw [Finset.sum_add_distrib, ← Multiset.card_sum, ← Finset.card_eq_sum_ones,
    Finset.card_range] at hsum
  exact absurd h (Nat.not_lt.2 hsum)

theorem exists_open (h : Multiset.card t.bag < t.size) :
    ∃ i < t.size, (t.slot i).isOpen = true := by
  by_contra hno
  push Not at hno
  have hone : ∀ i ∈ Finset.range t.size, 1 ≤ Multiset.card (t.slot i).bag := by
    intro i hi
    obtain ⟨e, he⟩ := Slot.exists_full (Bool.eq_false_iff.2 (hno i (Finset.mem_range.1 hi)))
    rw [he]
    exact Nat.le_refl 1
  have hsum := Finset.sum_le_sum hone
  rw [← Multiset.card_sum, ← Finset.card_eq_sum_ones, Finset.card_range] at hsum
  exact absurd h (Nat.not_lt.2 hsum)

theorem marks_put {i : Nat} (hi : i < t.size) (e : ε) : (t.set i (.full e)).marks ≤ t.marks := by
  have h : (t.slot i).mark + (t.set i (.full e)).marks = 0 + t.marks :=
    sum_set Slot.mark hi (.full e)
  omega

theorem marks_remove {i : Nat} {e : ε} (hi : i < t.size) (hs : t.slot i = .full e) :
    (t.set i .deleted).marks = t.marks + 1 := by
  have h : (t.slot i).mark + (t.set i .deleted).marks = 1 + t.marks :=
    sum_set Slot.mark hi .deleted
  rw [hs] at h
  have hz : (Slot.full e).mark = 0 := rfl
  omega

theorem marks_eq_zero (h : ∀ i < t.size, t.slot i ≠ .deleted) : t.marks = 0 := by
  refine Finset.sum_eq_zero fun i hi => ?_
  have hne := h i (Finset.mem_range.1 hi)
  cases hs : t.slot i with
  | deleted => exact absurd hs hne
  | free | full e => rfl

/-! ## Walking -/

theorem off_zero {b : Nat} (hb : b < t.size) : t.off b 0 = t.slot b := by
  unfold off
  rw [Nat.add_zero, Nat.mod_eq_of_lt hb]

theorem next_lt (i : Nat) : t.next i < t.size := Nat.mod_lt _ t.size_pos

theorem off_next (b j : Nat) : t.off (t.next b) j = t.off b (j + 1) := by
  unfold off next
  rw [Nat.mod_add_mod, Nat.add_right_comm, Nat.add_assoc]

/-- Two places of one turn of the circle differ. -/
theorem off_inj {n b j k : Nat} (hj : j < n) (hk : k < n) (h : (b + j) % n = (b + k) % n) :
    j = k := by
  have hm : j ≡ k [MOD n] := Nat.ModEq.add_left_cancel' b h
  exact Nat.ModEq.eq_of_lt_of_lt hm hj hk

theorem exists_off {n i : Nat} (b : Nat) (hi : i < n) : ∃ k < n, (b + k) % n = i := by
  have hn : 0 < n := Nat.zero_lt_of_lt hi
  refine ⟨(i + (n - b % n)) % n, Nat.mod_lt _ hn, ?_⟩
  have hb := Nat.mod_lt b hn
  have hb' := Nat.mod_add_div b n
  rw [Nat.add_mod_mod, show b + (i + (n - b % n)) = i + n * (b / n + 1) by rw [Nat.mul_add]; omega,
    Nat.add_mul_mod_self_left, Nat.mod_eq_of_lt hi]

theorem exists_path_length {b : Nat} (hf : ∃ i < t.size, t.slot i = .free) :
    ∃ d < t.size, t.off b d = .free ∧ ∀ j < d, t.off b j ≠ .free := by
  classical
  obtain ⟨i, hi, hs⟩ := hf
  obtain ⟨k, hk, hik⟩ := exists_off b hi
  have hex : ∃ k, t.off b k = .free := ⟨k, by unfold off; rw [hik]; exact hs⟩
  refine ⟨Nat.find hex, ?_, Nat.find_spec hex, fun j hj => Nat.find_min hex hj⟩
  refine Nat.lt_of_le_of_lt (Nat.find_min' hex ?_) hk
  unfold off
  rw [hik]
  exact hs

theorem path_of_ne {b : Nat} (h : t.slot b ≠ .free) (fuel : Nat) :
    t.path (fuel + 1) b = (t.path fuel (t.next b)).map (b :: ·) := by
  rw [path]
  split
  · next hs => exact absurd hs h
  · rfl

theorem path_of_free {b : Nat} (h : t.slot b = .free) (fuel : Nat) :
    t.path (fuel + 1) b = some [] := by
  rw [path, h]

/-- A path that is not empty starts with its slot and goes on from the next one. -/
theorem path_cons {fuel b i : Nat} {l : List Nat} (h : t.path (fuel + 1) b = some (i :: l)) :
    b = i ∧ t.slot b ≠ .free ∧ t.path fuel (t.next b) = some l := by
  by_cases hs : t.slot b = .free
  · rw [path_of_free hs] at h
    cases h
  · rw [path_of_ne hs] at h
    obtain ⟨l', hl', heq⟩ := Option.map_eq_some_iff.1 h
    obtain ⟨rfl, rfl⟩ := List.cons.inj heq
    exact ⟨rfl, hs, hl'⟩

/-- A search looks at its first slot first. -/
theorem path_first {fuel b : Nat} {pre post : List Nat} (h : t.path fuel b = some (pre ++ post))
    (hne : pre ≠ []) : b ∈ pre := by
  cases pre with
  | nil => exact absurd rfl hne
  | cons i pre =>
    cases fuel with
    | zero => cases h
    | succ fuel =>
      obtain ⟨rfl, -, -⟩ := path_cons h
      exact List.mem_cons_self

theorem path_eq {d : Nat} : ∀ {fuel b : Nat}, b < t.size → d < fuel → t.off b d = .free →
    (∀ j < d, t.off b j ≠ .free) →
    t.path fuel b = some ((List.range d).map fun j => (b + j) % t.size) := by
  induction d with
  | zero =>
    intro fuel b hb hd hfree _
    obtain ⟨fuel, rfl⟩ := Nat.exists_eq_add_of_le' hd
    rw [off_zero hb] at hfree
    exact path_of_free hfree fuel
  | succ d ih =>
    intro fuel b hb hd hfree hne
    obtain ⟨fuel, rfl⟩ := Nat.exists_eq_add_of_le' (Nat.zero_lt_of_lt hd)
    have h0 := hne 0 (Nat.succ_pos d)
    rw [off_zero hb] at h0
    have hrest := @ih fuel (t.next b) (next_lt b) (by omega) (by rw [off_next]; exact hfree)
      (fun j hj => by rw [off_next]; exact hne (j + 1) (Nat.succ_lt_succ hj))
    rw [path_of_ne h0, hrest, List.range_succ_eq_map, List.map_cons, List.map_map, Nat.add_zero,
      Nat.mod_eq_of_lt hb, Option.map_some]
    congr 2
    refine List.map_congr_left fun j _ => ?_
    unfold next
    simp only [Function.comp_apply, Nat.succ_eq_add_one]
    rw [Nat.mod_add_mod, Nat.add_right_comm, Nat.add_assoc]

/-- With a free slot about, a search has a path: no slot twice, none out of bounds or free. -/
theorem exists_path {b : Nat} (hb : b < t.size) (hf : ∃ i < t.size, t.slot i = .free) :
    ∃ l, t.path t.size b = some l ∧ l.Nodup ∧ l.length < t.size ∧
      ∀ i ∈ l, i < t.size ∧ t.slot i ≠ .free := by
  obtain ⟨d, hd, hfree, hne⟩ := exists_path_length (b := b) hf
  refine ⟨_, path_eq hb hd hfree hne, ?_, by simpa using hd, fun i hi => ?_⟩
  · refine List.nodup_range.map_on fun j hj k hk h => ?_
    exact off_inj (Nat.lt_trans (List.mem_range.1 hj) hd)
      (Nat.lt_trans (List.mem_range.1 hk) hd) h
  · obtain ⟨j, hj, rfl⟩ := List.mem_map.1 hi
    exact ⟨Nat.mod_lt _ t.size_pos, hne j (List.mem_range.1 hj)⟩

/-- The invariant, as a search uses it. -/
theorem Sound.mem_path {home : ε → Nat} (h : t.Sound home) {i b : Nat} {e : ε} {l : List Nat}
    (hf : ∃ i < t.size, t.slot i = .free) (hi : i < t.size) (he : t.slot i = .full e)
    (hb : home e = b) (hlt : b < t.size) (hl : t.path t.size b = some l) : i ∈ l := by
  subst hb
  obtain ⟨k, hk, hne⟩ := h i hi e he
  obtain ⟨d, hd, hfree, hned⟩ := exists_path_length (b := home e) hf
  have hkd : k < d := by
    by_contra hkd
    exact hne d (Nat.not_lt.1 hkd) hfree
  rw [path_eq hlt hd hfree hned] at hl
  cases hl
  exact List.mem_map.2 ⟨k, List.mem_range.2 hkd, hk⟩

theorem path_mono {fuel fuel' b : Nat} {l : List Nat} (hle : fuel ≤ fuel')
    (h : t.path fuel b = some l) : t.path fuel' b = some l := by
  induction fuel generalizing fuel' b l with
  | zero => cases h
  | succ fuel ih =>
    obtain ⟨fuel', rfl⟩ := Nat.exists_eq_add_of_le' (Nat.le_of_add_left_le hle)
    by_cases hs : t.slot b = .free
    · rw [path_of_free hs] at h ⊢
      exact h
    · rw [path_of_ne hs] at h ⊢
      obtain ⟨l', hl', rfl⟩ := Option.map_eq_some_iff.1 h
      rw [ih (Nat.le_of_succ_le_succ hle) hl']
      rfl

/-- A search that goes on after slot `i` of its path has the rest of the path before it. -/
theorem path_rest {fuel b i : Nat} {pre post : List Nat}
    (h : t.path fuel b = some (pre ++ i :: post)) : t.path fuel (t.next i) = some post := by
  induction pre generalizing fuel b with
  | nil =>
    cases fuel with
    | zero => cases h
    | succ fuel =>
      obtain ⟨rfl, -, hrest⟩ := path_cons h
      exact path_mono (Nat.le_succ fuel) hrest
  | cons a pre ih =>
    cases fuel with
    | zero => cases h
    | succ fuel => exact path_mono (Nat.le_succ fuel) (ih (path_cons h).2.2)

/-! ## Putting -/

theorem place_eq {d : Nat} : ∀ {fuel b : Nat}, b < t.size → d < fuel →
    (t.off b d).isOpen = true → (∀ j < d, (t.off b j).isOpen = false) →
    t.place fuel b = some ((b + d) % t.size) := by
  induction d with
  | zero =>
    intro fuel b hb hd ho _
    obtain ⟨fuel, rfl⟩ := Nat.exists_eq_add_of_le' hd
    rw [off_zero hb] at ho
    rw [place, if_pos ho, Nat.add_zero, Nat.mod_eq_of_lt hb]
  | succ d ih =>
    intro fuel b hb hd ho hfull
    obtain ⟨fuel, rfl⟩ := Nat.exists_eq_add_of_le' (Nat.zero_lt_of_lt hd)
    have h0 := hfull 0 (Nat.succ_pos d)
    rw [off_zero hb] at h0
    have hrest := @ih fuel (t.next b) (next_lt b) (by omega) (by rw [off_next]; exact ho)
      (fun j hj => by rw [off_next]; exact hfull (j + 1) (Nat.succ_lt_succ hj))
    rw [place, if_neg (Bool.eq_false_iff.1 h0), hrest]
    unfold next
    rw [Nat.mod_add_mod, Nat.add_right_comm, Nat.add_assoc]

theorem place_open {fuel b i : Nat} (h : t.place fuel b = some i) : (t.slot i).isOpen = true := by
  induction fuel generalizing b with
  | zero => cases h
  | succ fuel ih =>
    rw [place] at h
    split at h
    · next ho =>
      cases h
      exact ho
    · exact ih h

/-- An open slot `k` places on bounds how far an entry is put from `b`. -/
theorem exists_place {b k : Nat} (hb : b < t.size) (hk : k < t.size)
    (ho : (t.off b k).isOpen = true) :
    ∃ d ≤ k, (t.off b d).isOpen = true ∧ (∀ j < d, (t.off b j).isOpen = false) ∧
      t.place t.size b = some ((b + d) % t.size) := by
  have hex : ∃ k, (t.off b k).isOpen = true := ⟨k, ho⟩
  have hle := Nat.find_min' hex ho
  have hmin : ∀ j < Nat.find hex, (t.off b j).isOpen = false := fun j hj =>
    Bool.eq_false_iff.2 (Nat.find_min hex hj)
  exact ⟨Nat.find hex, hle, Nat.find_spec hex, hmin,
    place_eq hb (Nat.lt_of_le_of_lt hle hk) (Nat.find_spec hex) hmin⟩

theorem exists_put {b k : Nat} (hb : b < t.size) (hk : k < t.size)
    (ho : (t.off b k).isOpen = true) (e : ε) :
    ∃ d ≤ k, (t.off b d).isOpen = true ∧ (∀ j < d, (t.off b j).isOpen = false) ∧
      t.put b e = some (t.set ((b + d) % t.size) (.full e)) := by
  obtain ⟨d, hd, hopen, hfull, hplace⟩ := exists_place hb hk ho
  exact ⟨d, hd, hopen, hfull, congrArg (Option.map _) hplace⟩

theorem off_set (b j i : Nat) (x : Slot ε) :
    (t.set i x).off b j = if (b + j) % t.size = i then x else t.off b j := by
  unfold off
  by_cases h : (b + j) % t.size = i
  · rw [if_pos h, size_set, h, set_self]
  · rw [if_neg h, size_set, set_ne h]

/-- What is not free stays so when another slot, or this one, gets something that is not. -/
theorem off_set_ne_free {b j i : Nat} {x : Slot ε} (hx : x ≠ .free) (h : t.off b j ≠ .free) :
    (t.set i x).off b j ≠ .free := by
  rw [off_set]
  split
  · exact hx
  · exact h

theorem Sound.put {home : ε → Nat} (h : t.Sound home) {e : ε} (hb : home e < t.size)
    (hc : Multiset.card t.bag < t.size) :
    ∃ t', t.put (home e) e = some t' ∧ t'.size = t.size ∧ t'.Sound home ∧
      t'.bag = e ::ₘ t.bag ∧ t'.marks ≤ t.marks := by
  obtain ⟨i, hi, ho⟩ := exists_open hc
  obtain ⟨k, hk, rfl⟩ := exists_off (home e) hi
  obtain ⟨d, -, hopen, hfull, hput⟩ := exists_put hb hk ho e
  have hlt : (home e + d) % t.size < t.size := Nat.mod_lt _ t.size_pos
  refine ⟨_, hput, rfl, ?_, bag_put hlt hopen e, marks_put hlt e⟩
  intro i hi e' he'
  by_cases hid : i = (home e + d) % t.size
  · subst hid
    rw [set_self] at he'
    cases he'
    refine ⟨d, rfl, fun j hj => ?_⟩
    rcases Nat.lt_or_eq_of_le hj with hj | rfl
    · refine off_set_ne_free (by simp) fun hfree => ?_
      have hne := hfull j hj
      rw [hfree] at hne
      cases hne
    · rw [off_set, if_pos rfl]
      simp
  · rw [set_ne hid] at he'
    obtain ⟨k, hk, hne⟩ := h i hi e' he'
    exact ⟨k, hk, fun j hj => off_set_ne_free (by simp) (hne j hj)⟩

/-- An entry is taken out by a mark. -/
theorem Sound.remove {home : ε → Nat} (h : t.Sound home) (i : Nat) :
    (t.set i .deleted).Sound home := by
  intro j hj e he
  by_cases hji : j = i
  · subst hji
    rw [set_self] at he
    cases he
  · rw [set_ne hji] at he
    obtain ⟨k, hk, hne⟩ := h j hj e he
    exact ⟨k, hk, fun m hm => off_set_ne_free (by simp) (hne m hm)⟩

/-- The same slots below the size. -/
structure Same (t u : Table ε) : Prop where
  size : u.size = t.size
  slot : ∀ i < t.size, u.slot i = t.slot i

theorem Same.sound {u : Table ε} (h : Same t u) {home : ε → Nat} (hs : t.Sound home) :
    u.Sound home := by
  intro i hi e he
  rw [h.size] at hi
  rw [h.slot i hi] at he
  obtain ⟨k, hk, hne⟩ := hs i hi e he
  refine ⟨k, by rw [h.size]; exact hk, fun j hj => ?_⟩
  unfold off at hne ⊢
  rw [h.size, h.slot _ (Nat.mod_lt _ t.size_pos)]
  exact hne j hj

theorem Same.bag {u : Table ε} (h : Same t u) : u.bag = t.bag := by
  unfold Table.bag
  rw [h.size]
  refine Finset.sum_congr rfl fun i hi => ?_
  rw [h.slot i (Finset.mem_range.1 hi)]

theorem Same.marks {u : Table ε} (h : Same t u) : u.marks = t.marks := by
  unfold Table.marks
  rw [h.size]
  refine Finset.sum_congr rfl fun i hi => ?_
  rw [h.slot i (Finset.mem_range.1 hi)]

theorem sound_of_free (h : ∀ i < t.size, t.slot i = .free) (home : ε → Nat) : t.Sound home := by
  intro i hi e he
  rw [h i hi] at he
  cases he

theorem bag_of_free (h : ∀ i < t.size, t.slot i = .free) : t.bag = 0 :=
  Finset.sum_eq_zero fun i hi => by rw [h i (Finset.mem_range.1 hi)]; rfl

theorem marks_of_free (h : ∀ i < t.size, t.slot i = .free) : t.marks = 0 :=
  Finset.sum_eq_zero fun i hi => by rw [h i (Finset.mem_range.1 hi)]; rfl

/-- The run lemma of `moveAll`: the entries of the first `n` slots. -/
theorem Sound.moves {home : ε → Nat} {new : Table ε} (h : new.Sound home)
    (hhome : ∀ e, home e < new.size) (hbag : new.bag = 0)
    (hc : Multiset.card t.bag ≤ new.size) :
    ∀ n ≤ t.size, ∃ u, (List.range n).foldlM (fun u i => u.move home (t.slot i)) new = some u ∧
      u.size = new.size ∧ u.Sound home ∧ u.bag = ∑ i ∈ Finset.range n, (t.slot i).bag ∧
      u.marks ≤ new.marks
  | 0, _ => ⟨new, rfl, rfl, h, hbag, Nat.le_refl _⟩
  | n + 1, hn => by
    obtain ⟨m, hm, hsize, hs, hmbag, hmarks⟩ := Sound.moves h hhome hbag hc n (by omega)
    have hrange : (List.range (n + 1)).foldlM (fun u i => u.move home (t.slot i)) new =
        m.move home (t.slot n) := by
      rw [List.range_succ, List.foldlM_append, hm]
      simp
    rw [hrange, Finset.sum_range_succ]
    cases hslot : t.slot n with
    | free | deleted => exact ⟨m, rfl, hsize, hs, hmbag.trans (add_zero _).symm, hmarks⟩
    | full e =>
      have hsub : ∑ i ∈ Finset.range (n + 1), (t.slot i).bag ≤ t.bag :=
        Finset.sum_le_sum_of_subset (Finset.range_mono hn)
      rw [Finset.sum_range_succ, hslot, ← hmbag] at hsub
      have hcard := Multiset.card_le_card hsub
      rw [Multiset.card_add] at hcard
      have hone : Multiset.card (Slot.full e).bag = 1 := rfl
      obtain ⟨u, hu, husize, hus, hubag, humarks⟩ :=
        hs.put (e := e) (by rw [hsize]; exact hhome e) (by omega)
      refine ⟨u, hu, husize.trans hsize, hus, ?_, Nat.le_trans humarks hmarks⟩
      rw [hubag, hmbag, add_comm]
      rfl

/-- All entries are in the new table, where a search finds them. -/
theorem Sound.moveAll {home : ε → Nat} {new : Table ε} (h : new.Sound home)
    (hhome : ∀ e, home e < new.size) (hbag : new.bag = 0)
    (hc : Multiset.card t.bag ≤ new.size) :
    ∃ u, t.moveAll home new = some u ∧ u.size = new.size ∧ u.Sound home ∧ u.bag = t.bag ∧
      u.marks ≤ new.marks :=
  Sound.moves h hhome hbag hc t.size (Nat.le_refl _)

/-! ## Taking the marks away -/

/-- From the free slot `start` on the circle is a line: the walk from the home of an entry to
the entry does not pass it. -/
theorem Sound.line {home : ε → Nat} (h : t.Sound home) {start j : Nat} {e : ε}
    (hb : home e < t.size) (hs : t.off start 0 = .free) (hj : j < t.size)
    (he : t.off start j = .full e) :
    ∃ c ≤ j, (start + c) % t.size = home e ∧ ∀ m, c ≤ m → m ≤ j → t.off start m ≠ .free := by
  obtain ⟨k, hk, hne⟩ := h _ (Nat.mod_lt _ t.size_pos) e he
  obtain ⟨c, hc, hch⟩ := exists_off start hb
  have hoff : ∀ i, t.off (home e) i = t.off start (c + i) := by
    intro i
    unfold off
    rw [← hch, Nat.mod_add_mod, Nat.add_assoc]
  -- a walk that went round would meet `start`
  have hck : c + k < t.size := by
    by_contra hck
    have hround := hne (t.size - c) (by omega)
    rw [hoff, show c + (t.size - c) = 0 + t.size by omega] at hround
    unfold off at hround hs
    rw [← Nat.add_assoc, Nat.add_mod_right] at hround
    exact hround hs
  have hjk : c + k = j := by
    refine off_inj (b := start) hck hj ?_
    rw [← hk, ← hch, Nat.mod_add_mod, Nat.add_assoc]
  refine ⟨c, by omega, hch, fun m hcm hmj => ?_⟩
  have hm := hne (m - c) (by omega)
  rwa [hoff, Nat.add_sub_cancel' hcm] at hm

/-- `t` is `t₀` after the turns at the first `k` slots from `start` on. -/
structure Settled (home : ε → Nat) (start : Nat) (t₀ t : Table ε) (k : Nat) : Prop where
  size : t.size = t₀.size
  first : t.off start 0 = .free
  todo : ∀ j, k ≤ j → j < t₀.size → t.off start j = t₀.off start j
  clean : ∀ j < k, t.off start j ≠ .deleted
  line : ∀ j < k, ∀ e, t.off start j = .full e →
    ∃ c ≤ j, (start + c) % t₀.size = home e ∧ ∀ m, c ≤ m → m ≤ j → t.off start m ≠ .free
  bag : t.bag = t₀.bag

theorem off_set_line {start j k n : Nat} (hn : t.size = n) (hj : j < n) (hk : k < n)
    (x : Slot ε) :
    (t.set ((start + k) % n) x).off start j = if j = k then x else t.off start j := by
  subst hn
  rw [off_set]
  by_cases h : j = k
  · rw [if_pos h, if_pos (by rw [h])]
  · rw [if_neg h, if_neg fun he => h (off_inj hj hk he)]

/-- A slot without an entry is freed. -/
theorem Settled.freed {home : ε → Nat} {start k : Nat} {t₀ : Table ε}
    (h : Settled home start t₀ t k) (hk : k < t₀.size) (ho : (t.off start k).isOpen = true) :
    Settled home start t₀ (t.set ((start + k) % t₀.size) .free) (k + 1) := by
  have hlt : (start + k) % t₀.size < t.size := by
    rw [h.size]
    exact Nat.mod_lt _ t₀.size_pos
  have hoff : ∀ j < t₀.size, (t.set ((start + k) % t₀.size) .free).off start j =
      if j = k then .free else t.off start j := fun j hj => off_set_line h.size hj hk .free
  refine ⟨h.size, ?_, fun j hj hjn => ?_, fun j hj => ?_, fun j hj e he => ?_, ?_⟩
  · rw [hoff 0 t₀.size_pos]
    split
    · rfl
    · exact h.first
  · rw [hoff j hjn, if_neg (by omega)]
    exact h.todo j (by omega) hjn
  · rw [hoff j (by omega)]
    split
    · simp
    · exact h.clean j (by omega)
  · rw [hoff j (by omega)] at he
    split at he
    · cases he
    · obtain ⟨c, hc, hch, hne⟩ := h.line j (by omega) e he
      refine ⟨c, hc, hch, fun m hcm hmj => ?_⟩
      rw [hoff m (by omega), if_neg (by omega)]
      exact hne m hcm hmj
  · have hopen : (t.slot ((start + k) % t₀.size)).isOpen = true := by
      unfold off at ho
      rwa [h.size] at ho
    exact (bag_set_open hlt hopen rfl).trans h.bag

/-- `exists_put` along the line from `start`. -/
theorem exists_put_line {start b c k n : Nat} (hn : t.size = n) (hb : b < n)
    (hc : (start + c) % n = b) (hck : c ≤ k) (hk : k < n)
    (ho : (t.off start k).isOpen = true) (e : ε) :
    ∃ l, c ≤ l ∧ l ≤ k ∧ (t.off start l).isOpen = true ∧
      (∀ j, c ≤ j → j < l → (t.off start j).isOpen = false) ∧
      t.put b e = some (t.set ((start + l) % n) (.full e)) := by
  subst hn
  have hoff : ∀ i, t.off b i = t.off start (c + i) := by
    intro i
    unfold off
    rw [← hc, Nat.mod_add_mod, Nat.add_assoc]
  have hob : (t.off b (k - c)).isOpen = true := by
    rw [hoff, Nat.add_sub_cancel' hck]
    exact ho
  obtain ⟨d, hd, hdo, hdf, hput⟩ := exists_put hb (by omega) hob e
  refine ⟨c + d, by omega, by omega, ?_, fun j hcj hj => ?_, ?_⟩
  · rw [← hoff]
    exact hdo
  · have hf := hdf (j - c) (by omega)
    rwa [hoff, Nat.add_sub_cancel' hcj] at hf
  · rw [hput, ← hc, Nat.mod_add_mod, Nat.add_assoc]

/-- The entry of slot `k` is taken out and put again. -/
theorem Settled.moved {home : ε → Nat} {start c k : Nat} {t₀ : Table ε} {e : ε}
    (h : Settled home start t₀ t k) (hk : k < t₀.size) (hhome : home e < t₀.size)
    (hs : t.off start k = .full e) (hc0 : c ≠ 0) (hck : c ≤ k)
    (hch : (start + c) % t₀.size = home e) :
    ∃ t', (t.set ((start + k) % t₀.size) .free).put (home e) e = some t' ∧
      Settled home start t₀ t' (k + 1) := by
  have hlt : (start + k) % t₀.size < t.size := by
    rw [h.size]
    exact Nat.mod_lt _ t₀.size_pos
  have h₁ : ∀ j < t₀.size, (t.set ((start + k) % t₀.size) .free).off start j =
      if j = k then .free else t.off start j := fun j hj => off_set_line h.size hj hk .free
  have hopen : ((t.set ((start + k) % t₀.size) .free).off start k).isOpen = true := by
    rw [h₁ k hk, if_pos rfl]
    rfl
  obtain ⟨l, hcl, hlk, hlo, hlf, hput⟩ :=
    exists_put_line (t := t.set ((start + k) % t₀.size) .free) h.size hhome hch hck hk hopen e
  have hl : l < t₀.size := by omega
  have hlsize : (start + l) % t₀.size < (t.set ((start + k) % t₀.size) .free).size := by
    rw [size_set, h.size]
    exact Nat.mod_lt _ t₀.size_pos
  have h₂ : ∀ j < t₀.size,
      ((t.set ((start + k) % t₀.size) .free).set ((start + l) % t₀.size) (.full e)).off start j =
        if j = l then .full e else if j = k then .free else t.off start j := fun j hj => by
    rw [off_set_line (t := t.set ((start + k) % t₀.size) .free) h.size hj hl, h₁ j hj]
  refine ⟨_, hput, h.size, ?_, fun j hj hjn => ?_, fun j hj => ?_, fun j hj e' he' => ?_, ?_⟩
  · rw [h₂ 0 t₀.size_pos, if_neg (by omega), if_neg (by omega)]
    exact h.first
  · rw [h₂ j hjn, if_neg (by omega), if_neg (by omega)]
    exact h.todo j (by omega) hjn
  · rw [h₂ j (by omega)]
    split
    · simp
    · split
      · simp
      · exact h.clean j (by omega)
  · rw [h₂ j (by omega)] at he'
    by_cases hjl : j = l
    · subst hjl
      rw [if_pos rfl] at he'
      cases he'
      refine ⟨c, hcl, hch, fun m hcm hmj => ?_⟩
      rw [h₂ m (by omega)]
      split
      · simp
      · next hml =>
        -- before the slot that was found everything holds an entry
        have hf := hlf m hcm (by omega)
        rw [h₁ m (by omega)] at hf
        intro hfree
        rw [hfree] at hf
        cases hf
    · rw [if_neg hjl] at he'
      split at he'
      · cases he'
      · obtain ⟨c', hc', hch', hne⟩ := h.line j (by omega) e' he'
        refine ⟨c', hc', hch', fun m hcm hmj => ?_⟩
        rw [h₂ m (by omega)]
        split
        · simp
        · rw [if_neg (by omega)]
          exact hne m hcm hmj
  · have hslot : t.slot ((start + k) % t₀.size) = .full e := by
      rw [← hs]
      unfold off
      rw [h.size]
    have hlo' : ((t.set ((start + k) % t₀.size) .free).slot ((start + l) % t₀.size)).isOpen
        = true := by
      rw [← hlo]
      unfold off
      rw [size_set, h.size]
    rw [bag_put hlsize hlo', ← bag_clear hlt hslot rfl]
    exact h.bag

/-- The step lemma: an entry is put again between its home and where it was. -/
theorem Settled.step {home : ε → Nat} {stays : Nat → ε → Bool} {start k : Nat} {t₀ : Table ε}
    (h₀ : t₀.Sound home) (hhome : ∀ e, home e < t₀.size)
    (hstays : ∀ i e, stays i e = true → home e = i) (hfree : t₀.off start 0 = .free)
    (h : Settled home start t₀ t k) (hk : k < t₀.size) :
    ∃ t', t.resettle home stays ((start + k) % t₀.size) = some t' ∧
      Settled home start t₀ t' (k + 1) := by
  have hslot : t.slot ((start + k) % t₀.size) = t.off start k := by
    unfold off
    rw [h.size]
  unfold resettle
  rw [hslot]
  cases hs : t.off start k with
  | free =>
    refine ⟨t, rfl, h.size, h.first, fun j hj hjn => h.todo j (by omega) hjn, fun j hj => ?_,
      fun j hj e he => ?_, h.bag⟩
    · rcases Nat.lt_succ_iff_lt_or_eq.1 hj with hj | rfl
      · exact h.clean j hj
      · simp [hs]
    · rcases Nat.lt_succ_iff_lt_or_eq.1 hj with hj | rfl
      · exact h.line j hj e he
      · rw [hs] at he
        cases he
  | deleted => exact ⟨_, rfl, h.freed hk (by rw [hs]; rfl)⟩
  | full e =>
    have he₀ : t₀.off start k = .full e := by rw [← h.todo k (Nat.le_refl k) hk, hs]
    dsimp only
    cases hst : stays ((start + k) % t₀.size) e with
    | true =>
      rw [if_pos rfl]
      have hhm := hstays _ _ hst
      refine ⟨t, rfl, h.size, h.first, fun j hj hjn => h.todo j (by omega) hjn, fun j hj => ?_,
        fun j hj e' he' => ?_, h.bag⟩
      · rcases Nat.lt_succ_iff_lt_or_eq.1 hj with hj | rfl
        · exact h.clean j hj
        · simp [hs]
      · rcases Nat.lt_succ_iff_lt_or_eq.1 hj with hj | rfl
        · exact h.line j hj e' he'
        · rw [hs] at he'
          cases he'
          refine ⟨j, Nat.le_refl j, hhm.symm, fun m hjm hmj => ?_⟩
          obtain rfl := Nat.le_antisymm hmj hjm
          simp [hs]
    | false =>
      rw [if_neg Bool.false_ne_true]
      obtain ⟨c, hck, hch, hne⟩ := h₀.line (hhome e) hfree hk he₀
      refine h.moved hk (hhome e) hs ?_ hck hch
      rintro rfl
      exact hne 0 (Nat.le_refl 0) hck hfree

/-- The run lemma. -/
theorem Settled.run {home : ε → Nat} {stays : Nat → ε → Bool} {start : Nat} {t₀ : Table ε}
    (h₀ : t₀.Sound home) (hhome : ∀ e, home e < t₀.size)
    (hstays : ∀ i e, stays i e = true → home e = i) (hfree : t₀.off start 0 = .free) :
    ∀ n ≤ t₀.size, ∃ t',
      (List.range n).foldlM (fun t k => t.resettle home stays ((start + k) % t₀.size)) t₀ =
        some t' ∧ Settled home start t₀ t' n
  | 0, _ => ⟨t₀, rfl, rfl, hfree, fun _ _ _ => rfl, by simp, by simp, rfl⟩
  | n + 1, hn => by
    obtain ⟨m, hm, hset⟩ := Settled.run h₀ hhome hstays hfree n (by omega)
    obtain ⟨t', ht', hset'⟩ := hset.step h₀ hhome hstays hfree hn
    refine ⟨t', ?_, hset'⟩
    rw [List.range_succ, List.foldlM_append, hm]
    simpa using ht'

/-- All marks are gone, and the entries are where a search finds them. -/
theorem Sound.compact {home : ε → Nat} {stays : Nat → ε → Bool} {start : Nat}
    (h : t.Sound home) (hhome : ∀ e, home e < t.size)
    (hstays : ∀ i e, stays i e = true → home e = i) (hs : start < t.size)
    (hfree : t.slot start = .free) :
    ∃ t', t.compact home stays start = some t' ∧ t'.size = t.size ∧ t'.Sound home ∧
      t'.bag = t.bag ∧ t'.marks = 0 := by
  obtain ⟨t', ht', hset⟩ :=
    Settled.run h hhome hstays ((off_zero hs).trans hfree) t.size (Nat.le_refl _)
  have hslot : ∀ i < t'.size, ∃ j < t.size, (start + j) % t.size = i ∧
      t'.slot i = t'.off start j := by
    intro i hi
    obtain ⟨j, hj, hij⟩ := exists_off start (hset.size ▸ hi)
    refine ⟨j, hj, hij, ?_⟩
    unfold off
    rw [hset.size, hij]
  refine ⟨t', ht', hset.size, fun i hi e he => ?_, hset.bag, marks_eq_zero fun i hi => ?_⟩
  · obtain ⟨j, hj, rfl, hoff⟩ := hslot i hi
    obtain ⟨c, hcj, hch, hne⟩ := hset.line j hj e (hoff ▸ he)
    refine ⟨j - c, ?_, fun m hm => ?_⟩
    · rw [hset.size, ← hch, Nat.mod_add_mod, Nat.add_assoc, Nat.add_sub_cancel' hcj]
    · have hline := hne (c + m) (by omega) (by omega)
      unfold off at hline ⊢
      rwa [hset.size, ← hch, Nat.mod_add_mod, Nat.add_assoc, ← hset.size]
  · obtain ⟨j, hj, -, hoff⟩ := hslot i hi
    rw [hoff]
    exact hset.clean j hj

end Table

end Probing

import Mathlib.Data.List.Find
import MPIre.Ccan.Coding
import MPIre.Library.Run
/-
# The loops of the hash table

On a coded table the loops of the code are those of linear probing on its view:
`htableFind_eq` for a search, `htAdd_put` for an addition, `rehashLoop_compact` and
`doubleLoop_moveAll` for the two that put the entries again.
-/
namespace MPIre.Ccan
open Probing Run

namespace Htable

variable {ht : Htable} {rehash : Word → Word}

/-- `c` is `ht` with other words in its slots, and these stand for `u`. -/
structure Shows (ht : Htable) (rehash : Word → Word) (u : Table Word) (c : Htable) : Prop where
  same : ∃ t, c = ht.withTable t
  view : c.view = u
  coded : c.Coded rehash

/-! ## Searching -/

/-- A search for `h` stops at slot `i`. -/
def answers (ht : Htable) (h : Word) (i : Nat) : Bool :=
  ht.slot i ≠ htableDeleted ∧ ht.getExtraPtrBits (ht.slot i) =
    ht.getHashPtrBits h ||| if i = ht.hashBucket h then ht.perfectBit else 0

def candidate (ht : Htable) (i : Nat) : Nat × Word := (i, ht.getRawPtr (ht.slot i))

theorem htableValLoop_eq {perfect h2 : Word} (hp : h2 &&& ~~~perfect = h2) {fuel off : Nat}
    {l : List Nat} (hl : ht.view.path fuel off = some l) :
    ht.htableValLoop perfect fuel off h2 = some ((l.find? fun i =>
      ht.slot i ≠ htableDeleted ∧ ht.getExtraPtrBits (ht.slot i) = h2).map ht.candidate) := by
  induction fuel generalizing off l with
  | zero => cases hl
  | succ fuel ih =>
    rw [htableValLoop]
    by_cases h0 : ht.slot off = 0
    · rw [Table.path_of_free (slotOf_free_iff.2 h0)] at hl
      cases hl
      rw [if_pos h0]
      rfl
    · have hne : ht.view.slot off ≠ .free := fun hf => h0 (slotOf_free_iff.1 hf)
      rw [Table.path_of_ne hne, view_next] at hl
      obtain ⟨l', hl', rfl⟩ := Option.map_eq_some_iff.1 hl
      rw [if_neg h0, List.find?_cons]
      by_cases hm : ht.slot off ≠ htableDeleted ∧ ht.getExtraPtrBits (ht.slot off) = h2
      · rw [if_pos hm, decide_eq_true hm]
        rfl
      · rw [if_neg hm, decide_eq_false hm, hp]
        exact ih hl'

/-- A search after the home slot does not ask for the perfect bit. -/
theorem answers_of_ne {h : Word} {i : Nat} (hi : i ≠ ht.hashBucket h) :
    ht.answers h i = decide (ht.slot i ≠ htableDeleted ∧
      ht.getExtraPtrBits (ht.slot i) = ht.getHashPtrBits h) := by
  have hz : ht.getHashPtrBits h ||| 0 = ht.getHashPtrBits h := BitVec.or_zero
  unfold answers
  rw [if_neg hi, hz]

theorem getHashPtrBits_not_perfect (h : Word) :
    ht.getHashPtrBits h &&& ~~~ht.perfectBit = ht.getHashPtrBits h := by
  unfold getHashPtrBits
  rw [BitVec.and_assoc, BitVec.and_self]

theorem htableFirstval_eq {h : Word} {l : List Nat} (hn : l.Nodup)
    (hl : ht.view.path (1 <<< ht.bits) (ht.hashBucket h) = some l) :
    ht.htableFirstval h = some ((l.find? (ht.answers h)).map ht.candidate) := by
  unfold htableFirstval htableVal
  obtain ⟨fuel, hfuel⟩ := Nat.exists_eq_add_of_le' ht.num_pos
  rw [hfuel] at hl ⊢
  rw [htableValLoop]
  by_cases h0 : ht.slot (ht.hashBucket h) = 0
  · rw [Table.path_of_free (slotOf_free_iff.2 h0)] at hl
    cases hl
    rw [if_pos h0]
    rfl
  · have hne : ht.view.slot (ht.hashBucket h) ≠ .free := fun hf => h0 (slotOf_free_iff.1 hf)
    rw [Table.path_of_ne hne, view_next] at hl
    obtain ⟨l', hl', rfl⟩ := Option.map_eq_some_iff.1 hl
    rw [if_neg h0, List.find?_cons]
    have hhead : ht.answers h (ht.hashBucket h) =
        decide (ht.slot (ht.hashBucket h) ≠ htableDeleted ∧
          ht.getExtraPtrBits (ht.slot (ht.hashBucket h)) =
            ht.getHashPtrBits h ||| ht.perfectBit) := by
      unfold answers
      rw [if_pos rfl]
    -- from the second slot on the perfect bit is off
    have hoff : (ht.getHashPtrBits h ||| ht.perfectBit) &&& ~~~ht.perfectBit =
        ht.getHashPtrBits h := by
      rw [BitVec.and_or_distrib_right, getHashPtrBits_not_perfect, BitVec.and_not_self]
      simp
    have htail : l'.find? (ht.answers h) = l'.find? fun i => ht.slot i ≠ htableDeleted ∧
        ht.getExtraPtrBits (ht.slot i) = ht.getHashPtrBits h := by
      refine List.find?_congr fun i hi => ?_
      exact answers_of_ne (ne_of_mem_of_not_mem hi (List.nodup_cons.1 hn).1)
    rw [hhead]
    by_cases hm : ht.slot (ht.hashBucket h) ≠ htableDeleted ∧
        ht.getExtraPtrBits (ht.slot (ht.hashBucket h)) = ht.getHashPtrBits h ||| ht.perfectBit
    · rw [if_pos hm, decide_eq_true hm]
      rfl
    · rw [if_neg hm, decide_eq_false hm, hoff,
        htableValLoop_eq (getHashPtrBits_not_perfect h) hl', htail]

theorem htableNextval_eq {h : Word} {off : Nat} {l : List Nat} (hb : ht.hashBucket h ∉ l)
    (hl : ht.view.path (1 <<< ht.bits) (ht.view.next off) = some l) :
    ht.htableNextval off h = some ((l.find? (ht.answers h)).map ht.candidate) := by
  have hz : ht.getHashPtrBits h ||| 0 = ht.getHashPtrBits h := BitVec.or_zero
  have hn : ht.getHashPtrBits h &&& ~~~0 = ht.getHashPtrBits h := BitVec.and_allOnes
  rw [view_next] at hl
  unfold htableNextval htableVal
  rw [hz, htableValLoop_eq hn hl]
  congr 2
  refine List.find?_congr fun i hi => ?_
  exact (answers_of_ne (ne_of_mem_of_not_mem hi hb)).symm

/-- The loop from candidate to candidate, on what is left of the path. -/
theorem candidates_eq {cmp : Word → Bool} {h : Word} {fuel : Nat} {pre post : List Nat}
    (hn : (pre ++ post).Nodup)
    (hl : ht.view.path (1 <<< ht.bits) (ht.hashBucket h) = some (pre ++ post))
    (hfuel : post.length ≤ fuel) :
    ht.candidates cmp h fuel ((post.find? (ht.answers h)).map ht.candidate) =
      some ((post.find? fun i => ht.answers h i && cmp (ht.candidate i).2).map ht.candidate) := by
  induction fuel generalizing pre post with
  | zero =>
    obtain rfl := List.eq_nil_of_length_eq_zero (Nat.le_zero.1 hfuel)
    rfl
  | succ fuel ih =>
    cases hf : post.find? (ht.answers h) with
    | none =>
      have hnone : post.find? (fun i => ht.answers h i && cmp (ht.candidate i).2) = none := by
        rw [List.find?_eq_none] at hf ⊢
        intro i hi hand
        exact hf i hi (Bool.and_eq_true_iff.1 hand).1
      rw [hnone]
      rfl
    | some i =>
      obtain ⟨hi, as, bs, rfl, has⟩ := List.find?_eq_some_iff_append.1 hf
      have hskip : (as ++ i :: bs).find? (fun i => ht.answers h i && cmp (ht.candidate i).2) =
          (i :: bs).find? fun i => ht.answers h i && cmp (ht.candidate i).2 := by
        rw [List.find?_append, List.find?_eq_none.2, Option.none_or]
        intro j hj hand
        have hno := has j hj
        rw [(Bool.and_eq_true_iff.1 hand).1] at hno
        cases hno
      rw [hskip, List.find?_cons, hi, Bool.true_and, Option.map_some]
      show (if cmp (ht.candidate i).2 = true then _ else _) = _
      by_cases hc : cmp (ht.candidate i).2 = true
      · rw [if_pos hc, hc]
        rfl
      · rw [if_neg hc, Bool.eq_false_iff.2 hc]
        -- the search goes on behind slot `i`
        have hassoc : pre ++ (as ++ i :: bs) = (pre ++ as) ++ i :: bs := by simp
        have hsnoc : pre ++ (as ++ i :: bs) = (pre ++ as ++ [i]) ++ bs := by simp
        have hrest := Table.path_rest (hassoc ▸ hl)
        have hbucket : ht.hashBucket h ∉ bs := by
          rw [hsnoc] at hn hl
          have hfirst := Table.path_first hl (by simp)
          exact fun hm => List.disjoint_of_nodup_append hn hfirst hm
        rw [htableNextval_eq hbucket hrest]
        rw [hsnoc] at hn hl
        refine ih hn hl ?_
        simp only [List.length_append, List.length_cons] at hfuel
        omega

/-- **Searching.** The loop of `htable_get` and `htable_del` finds the first candidate on the
path that is accepted. -/
theorem htableFind_eq {cmp : Word → Bool} {h : Word} {l : List Nat} (hn : l.Nodup)
    (hl : ht.view.path (1 <<< ht.bits) (ht.hashBucket h) = some l) (hlen : l.length ≤ 1 <<< ht.bits) :
    ht.htableFind h cmp =
      some ((l.find? fun i => ht.answers h i && cmp (ht.candidate i).2).map ht.candidate) := by
  unfold htableFind
  rw [htableFirstval_eq hn hl]
  have hn' : ([] ++ l).Nodup := hn
  exact candidates_eq hn' hl hlen

/-! ## Putting -/

theorem htAddLoop_eq {fuel i : Nat} {perfect : Word} :
    ht.htAddLoop fuel perfect i =
      (ht.view.place fuel i).map fun j => (j, if entryIsValid (ht.slot i) then 0 else perfect) := by
  induction fuel generalizing i perfect with
  | zero => rfl
  | succ fuel ih =>
    have ho : (ht.view.slot i).isOpen = !entryIsValid (ht.slot i) := isOpen_slotOf _
    rw [htAddLoop, Table.place, ho]
    cases hv : entryIsValid (ht.slot i) with
    | true =>
      rw [if_pos rfl, if_pos rfl, if_neg (by simp), ih, view_next]
      congr 1
      funext j
      split <;> rfl
    | false => rfl

/-- `ht_add` puts the pointer where linear probing puts it. -/
theorem htAdd_put {c : Htable} {p : Word} {u u' : Table Word} (hc : ht.Shows rehash u c)
    (hp : p &&& ht.commonMask = ht.commonBits) (hshow : 1 < p &&& ~~~ht.commonMask)
    (hu : u.put (ht.home rehash p) p = some u') :
    ∃ c', c.htAdd p (rehash p) = some c' ∧ ht.Shows rehash u' c' := by
  obtain ⟨⟨t, rfl⟩, rfl, hc⟩ := hc
  obtain ⟨i, hplace, rfl⟩ := Option.map_eq_some_iff.1 hu
  -- the loop comes to its end in the home slot just if this is open
  have hhome : (if entryIsValid (t (ht.home rehash p)) then 0 else ht.perfectBit) =
      if i = ht.home rehash p then ht.perfectBit else 0 := by
    have ho : ((ht.withTable t).view.slot (ht.home rehash p)).isOpen =
        !entryIsValid (t (ht.home rehash p)) := isOpen_slotOf _
    cases hv : entryIsValid (t (ht.home rehash p)) with
    | true =>
      have hne : i ≠ ht.home rehash p := by
        rintro rfl
        rw [Table.place_open hplace, hv] at ho
        cases ho
      rw [if_neg hne, if_pos rfl]
    | false =>
      obtain ⟨fuel, hfuel⟩ := Nat.exists_eq_add_of_le' (ht.withTable t).view.size_pos
      rw [hfuel, Table.place, ho, hv] at hplace
      cases hplace
      rw [if_pos rfl, if_neg (by simp)]
  have hadd : (ht.withTable t).htAdd p (rehash p) =
      some (ht.withTable (Function.update t i (ht.makeHval p (ht.stamp rehash i p)))) := by
    have hloop : (ht.withTable t).htAddLoop (1 <<< ht.bits) ht.perfectBit (ht.home rehash p) =
        some (i, if i = ht.home rehash p then ht.perfectBit else 0) := by
      rw [htAddLoop_eq, ← hhome]
      exact congrArg (Option.map _) hplace
    unfold htAdd
    exact congrArg (Option.bind · _) hloop
  have hfull : ht.slotOf (ht.makeHval p (ht.stamp rehash i p)) = .full p :=
    slotOf_full_iff.2 ⟨valid_makeHval hshow _, getRawPtr_makeHval hp (stamp_mask hc.perfect i p)⟩
  refine ⟨_, hadd, ⟨_, rfl⟩, ?_, hc.write fun _ => ⟨p, hp, hshow, rfl⟩⟩
  rw [view_write, hfull]

/-- A word of the table as it was is put again with the hash bits of its new place. -/
theorem readd_put {c : Htable} {e : Word} {u u' : Table Word} (hc : ht.Shows rehash u c)
    (hshow : 1 < ht.getRawPtr e &&& ~~~ht.commonMask)
    (hu : u.put (ht.home rehash (ht.getRawPtr e)) (ht.getRawPtr e) = some u') :
    ∃ c', c.readd rehash e = some c' ∧ ht.Shows rehash u' c' := by
  have hraw : c.getRawPtr e = ht.getRawPtr e := by
    obtain ⟨t, rfl⟩ := hc.same
    rfl
  have hcommon : ht.commonBits &&& ht.commonMask = ht.commonBits := by
    obtain ⟨⟨t, rfl⟩, -, hcod⟩ := hc
    exact hcod.common
  unfold readd
  rw [hraw]
  exact htAdd_put hc (getRawPtr_common hcommon e) hshow hu

/-! ## Putting again -/

/-- An entry with the perfect bit stays where it is. -/
def stays (ht : Htable) (rehash : Word → Word) (i : Nat) (p : Word) : Bool :=
  ht.home rehash p = i ∧ ht.perfectBit ≠ 0

/-- A turn of `rehash_table` is one of `Table.compact`. -/
theorem rehashSlot_resettle {c : Htable} {i : Nat} {u u' : Table Word}
    (hc : ht.Shows rehash u c) (hi : i < 1 <<< ht.bits)
    (hu : u.resettle (ht.home rehash) (ht.stays rehash) i = some u') :
    ∃ c', rehashSlot rehash c i = some c' ∧ ht.Shows rehash u' c' := by
  obtain ⟨⟨t, rfl⟩, rfl, hcod⟩ := hc
  have hslot : (ht.withTable t).view.slot i = ht.slotOf (t i) := rfl
  have hfreed : ht.Shows rehash ((ht.withTable t).view.set i .free)
      (ht.withTable (Function.update t i 0)) :=
    ⟨⟨_, rfl⟩, view_write t i 0, hcod.write (writable_of_not_valid rfl)⟩
  unfold Table.resettle at hu
  unfold rehashSlot
  rw [withTable_slot]
  rw [hslot] at hu
  by_cases h0 : t i = 0
  · rw [slotOf_free_iff.2 h0] at hu
    cases hu
    exact ⟨_, if_pos h0, ⟨t, rfl⟩, rfl, hcod⟩
  by_cases h1 : t i = htableDeleted
  · have hdel : ht.slotOf (t i) = .deleted := by
      unfold slotOf
      rw [if_neg h0, if_pos h1]
    rw [hdel] at hu
    cases hu
    refine ⟨_, ?_, hfreed⟩
    dsimp only
    rw [if_neg h0, if_pos h1]
    rfl
  · have hv : entryIsValid (t i) = true := entryIsValid_iff.2 ⟨h0, h1⟩
    rw [slotOf_valid hv] at hu
    have hbit : t i &&& ht.perfectBit =
        if i = ht.home rehash (ht.getRawPtr (t i)) then ht.perfectBit else 0 := by
      have he := hcod.entry i hi hv
      rw [withTable_slot] at he
      rw [he]
      exact (makeHval_perfect hcod.perfect i _).trans (by rw [← he]; rfl)
    dsimp only at hu ⊢
    rw [if_neg h0, if_neg h1]
    show ∃ c', (if t i &&& ht.perfectBit = 0 then _ else _) = _ ∧ _
    by_cases hst : ht.home rehash (ht.getRawPtr (t i)) = i ∧ ht.perfectBit ≠ 0
    · have hstays : ht.stays rehash i (ht.getRawPtr (t i)) = true := decide_eq_true hst
      rw [if_pos hst.1.symm] at hbit
      rw [hstays, if_pos rfl] at hu
      cases hu
      rw [hbit, if_neg hst.2]
      exact ⟨_, rfl, ⟨t, rfl⟩, rfl, hcod⟩
    · have hstays : ht.stays rehash i (ht.getRawPtr (t i)) = false := decide_eq_false hst
      have hz : t i &&& ht.perfectBit = 0 := by
        rw [hbit]
        split
        · next hhome => exact by_contra fun hp => hst ⟨hhome.symm, hp⟩
        · rfl
      rw [hstays, if_neg Bool.false_ne_true] at hu
      rw [if_pos hz]
      exact readd_put hfreed (hcod.revealed i hi hv) hu

/-- The loop of `rehash_table` is `Table.compact`, from whichever slot. -/
theorem rehashLoop_compact {c : Htable} {start : Nat} {u : Table Word}
    (hc : ht.Shows rehash c.view c)
    (hu : c.view.compact (ht.home rehash) (ht.stays rehash) start = some u) :
    ∃ c', (List.range (1 <<< ht.bits)).foldlM
        (fun new i => rehashSlot rehash new (ht.wrap (i + start))) c = some c' ∧
      ht.Shows rehash u c' := by
  have hsize : c.view.size = 1 <<< ht.bits := by
    obtain ⟨t, ht'⟩ := hc.same
    rw [ht']
    rfl
  unfold Table.compact at hu
  rw [hsize] at hu
  refine run_sim (F := fun _ => True) (fun _ _ _ _ _ _ => trivial) ?_ hc
    (along_true _ _) hu trivial
  intro u₁ c₁ i u₂ h₁ _ hu₂ _
  rw [wrap_eq, Nat.add_comm i start]
  exact rehashSlot_resettle h₁ (Nat.mod_lt _ num_pos) hu₂

/-- The loop of `double_table`: the valid words of an old table are put into a new one. -/
theorem doubleLoop_moveAll (ht : Htable) {old c : Htable} {o : Nat → Word} {u : Table Word}
    (ho : old.table = some o) (hold : old.Coded rehash)
    (hmask : ht.commonMask = old.commonMask) (hbits : ht.commonBits = old.commonBits)
    (hc : ht.Shows rehash c.view c) (hu : old.view.moveAll (ht.home rehash) c.view = some u) :
    ∃ c', (List.range (1 <<< old.bits)).foldlM (fun new i =>
        if entryIsValid (o i) then new.readd rehash (o i) else some new) c = some c' ∧
      ht.Shows rehash u c' := by
  have hoi : ∀ i, old.slot i = o i := by
    intro i
    unfold slot
    rw [ho]
  have hraw : ∀ e, ht.getRawPtr e = old.getRawPtr e := by
    intro e
    unfold getRawPtr
    rw [hmask, hbits]
  have hbound : Along (fun u i => u.move (ht.home rehash) (old.view.slot i))
      (fun _ i => i < 1 <<< old.bits ∧ True) c.view (List.range old.view.size) :=
    along_and_mem (fun i hi => List.mem_range.1 hi) (along_true _ _)
  refine run_sim (F := fun _ => True) (fun _ _ _ _ _ _ => trivial) ?_ hc hbound hu trivial
  intro u₁ c₁ i u₂ h₁ ⟨hi, _⟩ hu₂ _
  have hslot : old.view.slot i = old.slotOf (o i) := congrArg old.slotOf (hoi i)
  rw [hslot] at hu₂
  cases hv : entryIsValid (o i) with
  | true =>
    have hshow := hold.revealed i hi (by rw [hoi]; exact hv)
    rw [slotOf_valid hv] at hu₂
    rw [if_pos rfl]
    refine readd_put h₁ ?_ (by rw [hraw]; exact hu₂)
    rw [hraw, hmask]
    rwa [hoi] at hshow
  | false =>
    have hopen := old.isOpen_slotOf (o i)
    rw [hv] at hopen
    refine ⟨c₁, rfl, ?_⟩
    cases hs : old.slotOf (o i) with
    | full p =>
      rw [hs] at hopen
      cases hopen
    | free | deleted =>
      rw [hs] at hu₂
      cases hu₂
      exact h₁

end Htable

end MPIre.Ccan

import MPIre.Ccan.Htable
import MPIre.Library.Probing
/-
# What the words of the hash table stand for

`Htable.view` is the table the words stand for: a word is a free slot, a deletion mark or a
pointer. `Coded` says that each word of an entry can be read back: it shows a bit of its
pointer that makes it neither 0 nor the mark, and in place of the common bits it has the bits
of the hash and the perfect bit that a search will ask for.

`Coded.write` writes one word. `update_common` gives common bits back without touching the
view (`Coded.narrowed`, `updateCommon_first`).
-/
namespace MPIre.Ccan
open Probing

theorem entryIsValid_iff {e : Word} : entryIsValid e = true ↔ e ≠ 0 ∧ e ≠ htableDeleted := by
  unfold entryIsValid htableDeleted
  rw [decide_eq_true_iff]
  bv_omega

/-! ## Bits -/

/-- All bits of the word are bits of the mask. -/
theorem within_iff {x m : Word} : x &&& m = x ↔ ∀ i (h : i < 64), x[i] = true → m[i] = true := by
  constructor
  · intro h i hi hx
    have hbit := congrArg (fun w : Word => w[i]) h
    simp only [BitVec.getElem_and] at hbit
    rw [hx] at hbit
    simpa using hbit
  · intro h
    ext i hi
    have hbit := h i hi
    rw [BitVec.getElem_and]
    grind

theorem and_bit_ne_zero_iff {x : Word} {i : Nat} (hi : i < 64) :
    x &&& ((1 : Word) <<< i) ≠ 0 ↔ x[i] = true := by
  have htwo : (1 : Word) <<< i = BitVec.twoPow 64 i := (BitVec.twoPow_eq 64 i).symm
  rw [htwo, BitVec.and_twoPow, BitVec.getLsbD_eq_getElem hi]
  split
  · next h =>
    refine iff_of_true (fun hz => ?_) h
    have hbit := congrArg (fun w : Word => w[i]) hz
    simp [BitVec.getElem_twoPow] at hbit
  · next h => exact iff_of_false (fun hz => hz rfl) h

theorem le_or (x y : Word) : x ≤ x ||| y := by
  rw [BitVec.le_def, BitVec.toNat_or]
  exact Nat.left_le_or

/-- The top bit of a pointer above 1 is above the lowest bit. -/
theorem topBit_spec {p : Word} : ∀ {n : Nat}, n < 64 → (∃ i, 0 < i ∧ i ≤ n ∧ p.getLsbD i = true) →
    0 < topBit p n ∧ topBit p n ≤ n ∧ p.getLsbD (topBit p n) = true ∧
      ∀ i, topBit p n < i → i ≤ n → p.getLsbD i = false
  | 0, _, ⟨i, hpos, hle, _⟩ => absurd hle (Nat.not_le.2 hpos)
  | n + 1, hn, ⟨i, hpos, hle, hbit⟩ => by
    unfold topBit
    by_cases hb : p.getLsbD (n + 1) = true
    · rw [if_pos ((and_bit_ne_zero_iff hn).2 (by rwa [← BitVec.getLsbD_eq_getElem]))]
      exact ⟨Nat.succ_pos n, Nat.le_refl _, hb, fun i hi hi' => absurd hi' (Nat.not_le.2 hi)⟩
    · rw [if_neg fun h => hb (by
        rw [BitVec.getLsbD_eq_getElem hn]
        exact (and_bit_ne_zero_iff hn).1 h)]
      have hne : i ≠ n + 1 := by
        rintro rfl
        exact hb hbit
      obtain ⟨h0, hle', htop, hmax⟩ := topBit_spec (n := n) (by omega) ⟨i, hpos, by omega, hbit⟩
      refine ⟨h0, by omega, htop, fun j hj hj' => ?_⟩
      rcases Nat.lt_or_eq_of_le hj' with hj' | rfl
      · exact hmax j hj (by omega)
      · exact Bool.eq_false_iff.2 hb

theorem exists_bit {p : Word} (h : 1 < p) : ∃ i, 0 < i ∧ i ≤ 63 ∧ p.getLsbD i = true := by
  by_contra hno
  have hlt : p.toNat < 2 ^ 1 := by
    refine Nat.lt_pow_two_of_testBit _ fun i hi => ?_
    by_contra hb
    have hbit : p.getLsbD i = true := Bool.of_not_eq_false hb
    exact hno ⟨i, hi, Nat.le_of_lt_succ (BitVec.lt_of_getLsbD hbit), hbit⟩
  have h' : 1 < p.toNat := h
  omega

namespace Htable

variable {ht : Htable} {rehash : Word → Word}

theorem getRawPtr_makeHval {p b : Word} (hp : p &&& ht.commonMask = ht.commonBits)
    (hb : b &&& ht.commonMask = b) : ht.getRawPtr (ht.makeHval p b) = p := by
  unfold getRawPtr makeHval
  rw [← hp]
  ext i hi
  have hbit := within_iff.1 hb i hi
  simp only [BitVec.getElem_or, BitVec.getElem_and, BitVec.getElem_not]
  grind

theorem getExtraPtrBits_makeHval {b : Word} (p : Word) (hb : b &&& ht.commonMask = b) :
    ht.getExtraPtrBits (ht.makeHval p b) = b := by
  unfold getExtraPtrBits makeHval
  rw [BitVec.and_or_distrib_right, hb, BitVec.and_assoc, BitVec.not_and_self]
  simp

theorem getRawPtr_common (h : ht.commonBits &&& ht.commonMask = ht.commonBits) (e : Word) :
    ht.getRawPtr e &&& ht.commonMask = ht.commonBits := by
  unfold getRawPtr
  rw [BitVec.and_or_distrib_right, h, BitVec.and_assoc, BitVec.not_and_self]
  simp

/-- A pointer with a bit to show above the lowest makes a valid entry. -/
theorem valid_makeHval {p : Word} (h : 1 < p &&& ~~~ht.commonMask) (b : Word) :
    entryIsValid (ht.makeHval p b) = true := by
  have hle := le_or (p &&& ~~~ht.commonMask) b
  unfold entryIsValid makeHval htableDeleted
  rw [decide_eq_true_iff]
  exact Nat.lt_of_lt_of_le h hle

theorem getHashPtrBits_mask (h : Word) :
    ht.getHashPtrBits h &&& ht.commonMask = ht.getHashPtrBits h := by
  rw [within_iff]
  intro i hi hbit
  unfold getHashPtrBits at hbit
  simp only [BitVec.getElem_and, Bool.and_eq_true] at hbit
  exact hbit.1.2

theorem getHashPtrBits_perfect (h : Word) : ht.getHashPtrBits h &&& ht.perfectBit = 0 := by
  unfold getHashPtrBits
  rw [BitVec.and_assoc, BitVec.not_and_self]
  simp

/-! ## The view -/

theorem wrap_eq (i : Nat) : ht.wrap i = i % (1 <<< ht.bits) := by
  unfold wrap
  rw [Nat.one_shiftLeft, Nat.and_two_pow_sub_one_eq_mod]

theorem num_pos : 0 < 1 <<< ht.bits := by
  rw [Nat.one_shiftLeft]
  exact Nat.two_pow_pos _

theorem wrap_lt (i : Nat) : ht.wrap i < 1 <<< ht.bits := by
  rw [wrap_eq]
  exact Nat.mod_lt _ num_pos

/-- What a word stands for. -/
def slotOf (ht : Htable) (e : Word) : Slot Word :=
  if e = 0 then .free else if e = htableDeleted then .deleted else .full (ht.getRawPtr e)

def view (ht : Htable) : Table Word where
  size := 1 <<< ht.bits
  size_pos := num_pos
  slot i := ht.slotOf (ht.slot i)

theorem slotOf_valid {e : Word} (h : entryIsValid e = true) :
    ht.slotOf e = .full (ht.getRawPtr e) := by
  obtain ⟨h0, h1⟩ := entryIsValid_iff.1 h
  unfold slotOf
  rw [if_neg h0, if_neg h1]

theorem isOpen_slotOf (e : Word) : (ht.slotOf e).isOpen = !entryIsValid e := by
  cases hv : entryIsValid e with
  | true =>
    rw [slotOf_valid hv]
    rfl
  | false =>
    have hno : ¬ (e ≠ 0 ∧ e ≠ htableDeleted) := fun h => by
      rw [entryIsValid_iff.2 h] at hv
      cases hv
    unfold slotOf
    by_cases h0 : e = 0
    · rw [if_pos h0]
      rfl
    · rw [if_neg h0, if_pos (by_contra fun h1 => hno ⟨h0, h1⟩)]
      rfl

/-- What stands for no entry does so under any mask. -/
theorem slotOf_of_not_valid {e : Word} (h : entryIsValid e = false) (ht₁ ht₂ : Htable) :
    ht₁.slotOf e = ht₂.slotOf e := by
  unfold slotOf
  by_cases h0 : e = 0
  · rw [if_pos h0, if_pos h0]
  · have h1 : e = htableDeleted := by
      by_contra h1
      rw [entryIsValid_iff.2 ⟨h0, h1⟩] at h
      cases h
    rw [if_neg h0, if_pos h1, if_neg h0, if_pos h1]

theorem slotOf_free_iff {e : Word} : ht.slotOf e = .free ↔ e = 0 := by
  unfold slotOf
  by_cases h0 : e = 0
  · rw [if_pos h0]
    exact iff_of_true rfl h0
  · rw [if_neg h0]
    split <;> exact iff_of_false (by simp) h0

theorem slotOf_full_iff {e p : Word} :
    ht.slotOf e = .full p ↔ entryIsValid e = true ∧ ht.getRawPtr e = p := by
  constructor
  · intro h
    have hv : entryIsValid e = true := by
      have ho := ht.isOpen_slotOf e
      rw [h] at ho
      simpa [Slot.isOpen] using ho
    rw [slotOf_valid hv] at h
    exact ⟨hv, Slot.full.inj h⟩
  · rintro ⟨hv, rfl⟩
    exact slotOf_valid hv

theorem view_next (i : Nat) : ht.view.next i = ht.wrap (i + 1) := (wrap_eq _).symm

/-! ## Coded tables -/

def home (ht : Htable) (rehash : Word → Word) (p : Word) : Nat := ht.hashBucket (rehash p)

theorem home_lt (ht : Htable) (rehash : Word → Word) (p : Word) :
    ht.home rehash p < ht.view.size := wrap_lt _

/-- The bits pointer `p` has in slot `i` in place of the common ones. -/
def stamp (ht : Htable) (rehash : Word → Word) (i : Nat) (p : Word) : Word :=
  ht.getHashPtrBits (rehash p) ||| if i = ht.home rehash p then ht.perfectBit else 0

structure Coded (rehash : Word → Word) (ht : Htable) : Prop where
  common : ht.commonBits &&& ht.commonMask = ht.commonBits
  perfect : ht.perfectBit &&& ht.commonMask = ht.perfectBit
  entry : ∀ i < 1 <<< ht.bits, entryIsValid (ht.slot i) = true →
    ht.slot i = ht.makeHval (ht.getRawPtr (ht.slot i))
      (ht.stamp rehash i (ht.getRawPtr (ht.slot i)))
  revealed : ∀ i < 1 <<< ht.bits, entryIsValid (ht.slot i) = true →
    1 < ht.getRawPtr (ht.slot i) &&& ~~~ht.commonMask

theorem stamp_mask (h : ht.perfectBit &&& ht.commonMask = ht.perfectBit) (i : Nat) (p : Word) :
    ht.stamp rehash i p &&& ht.commonMask = ht.stamp rehash i p := by
  unfold stamp
  rw [BitVec.and_or_distrib_right, getHashPtrBits_mask]
  split
  · rw [h]
  · simp

/-- The perfect bit of a word tells whether it is in the home slot. -/
theorem makeHval_perfect (h : ht.perfectBit &&& ht.commonMask = ht.perfectBit) (i : Nat)
    (p : Word) : ht.makeHval p (ht.stamp rehash i p) &&& ht.perfectBit =
      if i = ht.home rehash p then ht.perfectBit else 0 := by
  have hin := within_iff.1 h
  have hz : p &&& ~~~ht.commonMask &&& ht.perfectBit = 0 := by
    ext j hj
    have hbit := hin j hj
    simp only [BitVec.getElem_and, BitVec.getElem_not]
    grind
  unfold makeHval stamp
  rw [BitVec.and_or_distrib_right, BitVec.and_or_distrib_right, hz, getHashPtrBits_perfect]
  split <;> simp

theorem Coded.extra (hc : ht.Coded rehash) {i : Nat} (hi : i < 1 <<< ht.bits)
    (hv : entryIsValid (ht.slot i) = true) :
    ht.getExtraPtrBits (ht.slot i) = ht.stamp rehash i (ht.getRawPtr (ht.slot i)) := by
  rw [hc.entry i hi hv, getExtraPtrBits_makeHval _ (stamp_mask hc.perfect i _),
    ← hc.entry i hi hv]

/-- The table with other words in its slots. -/
def withTable (ht : Htable) (t : Nat → Word) : Htable := { ht with table := some t }

theorem withTable_self {t : Nat → Word} (h : ht.table = some t) : ht.withTable t = ht := by
  unfold withTable
  rw [← h]

theorem withTable_slot (t : Nat → Word) : (ht.withTable t).slot = t := rfl

/-- A word that may be written into slot `i`. -/
def Writable (ht : Htable) (rehash : Word → Word) (i : Nat) (e : Word) : Prop :=
  entryIsValid e = true → ∃ p, p &&& ht.commonMask = ht.commonBits ∧
    1 < p &&& ~~~ht.commonMask ∧ e = ht.makeHval p (ht.stamp rehash i p)

/-- The step lemma: one word is written. -/
theorem Coded.write {t : Nat → Word} (hc : (ht.withTable t).Coded rehash) {i : Nat} {e : Word}
    (he : ht.Writable rehash i e) : (ht.withTable (Function.update t i e)).Coded rehash where
  common := hc.common
  perfect := hc.perfect
  entry := by
    intro j hj hv
    rw [withTable_slot] at hv ⊢
    by_cases hji : j = i
    · subst hji
      rw [Function.update_self] at hv ⊢
      obtain ⟨p, hp, -, rfl⟩ := he hv
      have hraw : ht.getRawPtr (ht.makeHval p (ht.stamp rehash j p)) = p :=
        getRawPtr_makeHval hp (stamp_mask hc.perfect j p)
      show _ = ht.makeHval (ht.getRawPtr _) (ht.stamp rehash j (ht.getRawPtr _))
      rw [hraw]
    · rw [Function.update_of_ne hji] at hv ⊢
      exact hc.entry j hj hv
  revealed := by
    intro j hj hv
    rw [withTable_slot] at hv ⊢
    by_cases hji : j = i
    · subst hji
      rw [Function.update_self] at hv ⊢
      obtain ⟨p, hp, hshow, rfl⟩ := he hv
      have hraw : ht.getRawPtr (ht.makeHval p (ht.stamp rehash j p)) = p :=
        getRawPtr_makeHval hp (stamp_mask hc.perfect j p)
      show 1 < ht.getRawPtr _ &&& ~~~ht.commonMask
      rw [hraw]
      exact hshow
    · rw [Function.update_of_ne hji] at hv ⊢
      exact hc.revealed j hj hv

theorem view_write (t : Nat → Word) (i : Nat) (e : Word) :
    (ht.withTable (Function.update t i e)).view = (ht.withTable t).view.set i (ht.slotOf e) := by
  unfold view Table.set
  congr 1
  funext j
  by_cases hji : j = i
  · subst hji
    rw [withTable_slot, Function.update_self, Function.update_self]
    rfl
  · rw [withTable_slot, Function.update_of_ne hji, Function.update_of_ne hji]
    rfl

theorem writable_of_not_valid {i : Nat} {e : Word} (h : entryIsValid e = false) :
    ht.Writable rehash i e := by
  intro hv
  rw [h] at hv
  cases hv

/-! ## Giving common bits back -/

theorem and_not_le {m m' : Word} (h : m' &&& m = m') (x : Word) :
    x &&& ~~~m ≤ x &&& ~~~m' := by
  have hor : x &&& ~~~m' = (x &&& ~~~m) ||| (x &&& ~~~m') := by
    ext i hi
    have hbit := within_iff.1 h i hi
    simp only [BitVec.getElem_or, BitVec.getElem_and, BitVec.getElem_not]
    grind
  rw [hor]
  exact le_or _ _

/-- The bits at which a pointer differs from the common ones. -/
def maskdiff (ht : Htable) (p : Word) : Word := ht.commonBits ^^^ (p &&& ht.commonMask)

/-- What the loop of `update_common` makes of a valid word. -/
def giveBack (ht : Htable) (p e : Word) : Word :=
  (e &&& ~~~ht.maskdiff p) ||| (ht.commonBits &&& ht.maskdiff p)

/-- The table after `update_common` of a table with entries. -/
def narrowed (ht : Htable) (p : Word) : Htable := { ht with
  table := ht.table.map fun t i => if entryIsValid (t i) then ht.giveBack p (t i) else t i
  commonMask := ht.commonMask &&& ~~~ht.maskdiff p
  commonBits := ht.commonBits &&& ~~~ht.maskdiff p
  perfectBit := ht.perfectBit &&& ~~~ht.maskdiff p }

theorem updateCommon_of_ne {p : Word} (h : ht.elems ≠ 0) : ht.updateCommon p = ht.narrowed p := by
  unfold updateCommon
  rw [if_neg h]
  rfl

theorem maskdiff_within (hc : ht.commonBits &&& ht.commonMask = ht.commonBits) {p : Word} {i : Nat}
    (hi : i < 64) (h : (ht.maskdiff p)[i] = true) : ht.commonMask[i] = true := by
  have hbit := within_iff.1 hc i hi
  unfold maskdiff at h
  simp only [BitVec.getElem_xor, BitVec.getElem_and] at h
  grind

/-- The pointer of an entry keeps its place, with fewer bits that are not its own. -/
theorem giveBack_makeHval (hc : ht.commonBits &&& ht.commonMask = ht.commonBits) {q : Word}
    (hq : q &&& ht.commonMask = ht.commonBits) (p : Word) (i : Nat) :
    ht.giveBack p (ht.makeHval q (ht.stamp rehash i q)) =
      (ht.narrowed p).makeHval q ((ht.narrowed p).stamp rehash i q) := by
  have hhome : (ht.narrowed p).home rehash q = ht.home rehash q := rfl
  unfold stamp
  rw [hhome]
  unfold giveBack makeHval getHashPtrBits narrowed
  ext j hj
  have hdiff := maskdiff_within hc (p := p) hj
  have hqj := congrArg (fun w : Word => w[j]) hq
  simp only [BitVec.getElem_and] at hqj
  split <;> simp only [BitVec.getElem_or, BitVec.getElem_and, BitVec.getElem_not] <;> grind

/-- A pointer that had the common bits has those that are left. -/
theorem narrowed_common {q : Word} (hq : q &&& ht.commonMask = ht.commonBits) (p : Word) :
    q &&& (ht.narrowed p).commonMask = (ht.narrowed p).commonBits := by
  unfold narrowed
  dsimp only
  rw [← BitVec.and_assoc, hq]

/-- The pointer the bits were given back for has the common bits that are left. -/
theorem narrowed_self (p : Word) :
    p &&& (ht.narrowed p).commonMask = (ht.narrowed p).commonBits := by
  unfold narrowed maskdiff
  ext j hj
  simp only [BitVec.getElem_and, BitVec.getElem_not, BitVec.getElem_xor]
  grind

theorem narrowed_within {x : Word} (h : x &&& ht.commonMask = x) (p : Word) :
    (x &&& ~~~ht.maskdiff p) &&& (ht.commonMask &&& ~~~ht.maskdiff p) =
      x &&& ~~~ht.maskdiff p := by
  ext j hj
  have hbit := within_iff.1 h j hj
  simp only [BitVec.getElem_and, BitVec.getElem_not]
  grind

/-- `update_common` of a table with entries changes what its words look like, not what they
stand for. -/
theorem Coded.narrowed {t : Nat → Word} (ht' : ht.table = some t) (hc : ht.Coded rehash)
    (p : Word) : (ht.narrowed p).Coded rehash ∧ Table.Same ht.view (ht.narrowed p).view := by
  have hslot : ∀ i, (ht.narrowed p).slot i =
      if entryIsValid (ht.slot i) then ht.giveBack p (ht.slot i) else ht.slot i := by
    intro i
    unfold slot Htable.narrowed
    dsimp only
    rw [ht']
    rfl
  have hmask : (ht.narrowed p).commonMask &&& ht.commonMask = (ht.narrowed p).commonMask := by
    unfold Htable.narrowed
    dsimp only
    rw [BitVec.and_assoc, BitVec.and_comm _ ht.commonMask, ← BitVec.and_assoc, BitVec.and_self]
  have hperfect : (ht.narrowed p).perfectBit &&& (ht.narrowed p).commonMask =
      (ht.narrowed p).perfectBit := narrowed_within hc.perfect p
  -- an entry, before and after
  have hentry : ∀ i < 1 <<< ht.bits, entryIsValid (ht.slot i) = true →
      (ht.narrowed p).slot i = (ht.narrowed p).makeHval (ht.getRawPtr (ht.slot i))
        ((ht.narrowed p).stamp rehash i (ht.getRawPtr (ht.slot i))) ∧
      (ht.narrowed p).getRawPtr ((ht.narrowed p).slot i) = ht.getRawPtr (ht.slot i) ∧
      1 < ht.getRawPtr (ht.slot i) &&& ~~~(ht.narrowed p).commonMask := by
    intro i hi hv
    have hq := getRawPtr_common hc.common (ht.slot i)
    have hword : (ht.narrowed p).slot i = (ht.narrowed p).makeHval (ht.getRawPtr (ht.slot i))
        ((ht.narrowed p).stamp rehash i (ht.getRawPtr (ht.slot i))) := by
      rw [hslot, if_pos hv]
      have hg : ht.giveBack p (ht.makeHval _ (ht.stamp rehash i _)) = _ :=
        giveBack_makeHval hc.common hq p i
      rwa [← hc.entry i hi hv] at hg
    refine ⟨hword, ?_, Nat.lt_of_lt_of_le (hc.revealed i hi hv) (and_not_le hmask _)⟩
    rw [hword, getRawPtr_makeHval (narrowed_common hq p) (stamp_mask hperfect i _)]
  have hvalid : ∀ i < 1 <<< ht.bits, entryIsValid ((ht.narrowed p).slot i) = true →
      entryIsValid (ht.slot i) = true := by
    intro i hi hv
    by_contra hno
    rw [hslot, if_neg hno] at hv
    exact hno hv
  refine ⟨⟨narrowed_within hc.common p, hperfect, fun i hi hv => ?_, fun i hi hv => ?_⟩, rfl,
    fun i hi => ?_⟩
  · obtain ⟨hword, hraw, -⟩ := hentry i hi (hvalid i hi hv)
    rw [hraw]
    exact hword
  · obtain ⟨-, hraw, hshow⟩ := hentry i hi (hvalid i hi hv)
    rw [hraw]
    exact hshow
  · show (ht.narrowed p).slotOf ((ht.narrowed p).slot i) = ht.slotOf (ht.slot i)
    cases hv : entryIsValid (ht.slot i) with
    | true =>
      obtain ⟨hword, hraw, hshow⟩ := hentry i hi hv
      have hv' : entryIsValid ((ht.narrowed p).slot i) = true := by
        rw [hword]
        exact valid_makeHval hshow _
      rw [slotOf_valid hv', slotOf_valid hv, hraw]
    | false =>
      rw [hslot, if_neg (by rw [hv]; exact Bool.false_ne_true)]
      exact slotOf_of_not_valid hv _ _

/-- `update_common` of a table without entries hides all bits of the pointer but the top one. -/
theorem updateCommon_first {t : Nat → Word} {p : Word} (ht' : ht.table = some t)
    (he : ht.elems = 0) (hp : 1 < p)
    (hnone : ∀ i < 1 <<< ht.bits, entryIsValid (ht.slot i) = false) :
    (ht.updateCommon p).Coded rehash ∧ Table.Same ht.view (ht.updateCommon p).view := by
  obtain ⟨hpos, -⟩ := topBit_spec (by decide) (exists_bit hp)
  have hcommon : (ht.updateCommon p).commonBits = p &&& (ht.updateCommon p).commonMask := by
    unfold updateCommon
    rw [if_pos he]
  have hmask : (ht.updateCommon p).commonMask = ~~~((1 : Word) <<< topBit p 63) := by
    unfold updateCommon
    rw [if_pos he]
  have hperfect : (ht.updateCommon p).perfectBit = 1 := by
    unfold updateCommon
    rw [if_pos he]
  have hbits : (ht.updateCommon p).bits = ht.bits := by
    unfold updateCommon
    rw [if_pos he]
  have hslot : (ht.updateCommon p).slot = ht.slot := by
    unfold updateCommon
    rw [if_pos he]
    unfold slot
    rw [ht']
  refine ⟨⟨?_, ?_, fun i hi hv => ?_, fun i hi hv => ?_⟩, ?_, fun i hi => ?_⟩
  · rw [hcommon, BitVec.and_assoc, BitVec.and_self]
  · rw [hperfect, hmask, within_iff]
    intro j hj hone
    have hj0 : j = 0 := by simpa using hone
    have htwo : (1 : Word) <<< topBit p 63 = BitVec.twoPow 64 (topBit p 63) :=
      (BitVec.twoPow_eq 64 _).symm
    rw [BitVec.getElem_not, htwo, BitVec.getElem_twoPow, decide_eq_false (by omega)]
    rfl
  · rw [hbits] at hi
    rw [hslot, hnone i hi] at hv
    cases hv
  · rw [hbits] at hi
    rw [hslot, hnone i hi] at hv
    cases hv
  · show 1 <<< (ht.updateCommon p).bits = 1 <<< ht.bits
    rw [hbits]
  · show (ht.updateCommon p).slotOf ((ht.updateCommon p).slot i) = ht.slotOf (ht.slot i)
    rw [hslot]
    exact slotOf_of_not_valid (hnone i hi) _ _

end Htable

end MPIre.Ccan

import MPIre.Ccan.Bag
/-
# Runs of the hash table

A program that adds and deletes pointers under their own hashes, with a log of what it was
told. `run_represents` is the run lemma: as long as the pointers it adds show a bit, the table
holds what the log says, whatever the hashes are and whether or not there is memory.

Pointers show a bit if their top bits never go down (`along_reveals`), as those of one heap
do. `add_kept` says that the condition is needed: a pointer without a bit to show, under
hash 0, is added and not found again.
-/
namespace MPIre.Ccan
open Probing Run

namespace Htable

inductive Op where
  | add (p : Word)
  | del (p : Word)
  | clear
deriving DecidableEq, Repr

def Op.perform (calloc : Calloc) (rehash : Word → Word) (ht : Htable) :
    Op → Option (Htable × Bool)
  | .add p => ht.htableAdd calloc rehash (rehash p) p
  | .del p => ht.htableDel (rehash p) p
  | .clear => some (init, true)

/-- A call, with the calls before it and what they returned. What `calloc` answers may be another
thing in each. -/
def apply (calloc : Nat → Calloc) (rehash : Word → Word) (s : Htable × List (Op × Bool)) (op : Op) :
    Option (Htable × List (Op × Bool)) :=
  (op.perform (calloc s.2.length) rehash s.1).map fun r => (r.1, s.2 ++ [(op, r.2)])

/-- What is in after a call that was answered. -/
def Op.after (ps : Multiset Word) : Op × Bool → Multiset Word
  | (.add p, true) => p ::ₘ ps
  | (.add _, false) => ps
  | (.del p, _) => ps.erase p
  | (.clear, _) => 0

def held (log : List (Op × Bool)) : Multiset Word := log.foldl Op.after 0

/-- A deletion says whether the pointer was in. -/
def Truthful (log : List (Op × Bool)) : Prop :=
  ∀ before p ok, before ++ [(.del p, ok)] <+: log → ok = decide (p ∈ held before)

def Op.Reveals (ht : Htable) : Op → Prop
  | .add p => ht.Reveals p
  | _ => True

instance (ht : Htable) : ∀ op : Op, Decidable (op.Reveals ht)
  | .add p => inferInstanceAs (Decidable (ht.Reveals p))
  | .del _ | .clear => isTrue trivial

/-- The masks of the two tables are the same. -/
structure Masked (ht ht' : Htable) : Prop where
  commonMask : ht'.commonMask = ht.commonMask
  commonBits : ht'.commonBits = ht.commonBits
  perfectBit : ht'.perfectBit = ht.perfectBit

/-- What a call makes of the masks. -/
def Op.Masks (ht ht' : Htable) : Op → Prop
  | .add p => ht' = ht ∨ ∃ c, ht.Keeps c ∧ (c.adopt p).Masked ht'
  | .del _ => ht.Masked ht'
  | .clear => ht' = init

variable {ht : Htable} {rehash : Word → Word} {ps : Multiset Word} {calloc : Nat → Calloc}

theorem held_append (log : List (Op × Bool)) (x : Op × Bool) :
    held (log ++ [x]) = Op.after (held log) x := by
  unfold held
  rw [List.foldl_append]
  rfl

theorem Truthful.append {log : List (Op × Bool)} (h : Truthful log) {x : Op × Bool}
    (hx : ∀ p ok, x = (.del p, ok) → ok = decide (p ∈ held log)) : Truthful (log ++ [x]) := by
  intro before p ok hpre
  rcases List.prefix_concat_iff.1 hpre with heq | hpre
  · obtain ⟨rfl, hlast⟩ := List.append_inj' heq rfl
    exact hx p ok (List.cons.inj hlast).1.symm
  · exact h before p ok hpre

/-- The step lemma of the table. -/
theorem Represents.perform (calloc : Calloc) (h : ht.Represents rehash ps) {op : Op} (hop : op.Reveals ht) :
    ∃ ht' ok, op.perform calloc rehash ht = some (ht', ok) ∧
      ht'.Represents rehash (Op.after ps (op, ok)) ∧ op.Masks ht ht' ∧
      ∀ p, op = .del p → ok = decide (p ∈ ps) := by
  cases op with
  | clear => exact ⟨init, true, rfl, represents_init rehash, rfl, nofun⟩
  | del p =>
    obtain ⟨ht', hdel, hrep, hmask, hbits, hperfect⟩ := h.del p
    refine ⟨ht', _, hdel, hrep, ⟨hmask, hbits, hperfect⟩, fun q hq => ?_⟩
    cases hq
    rfl
  | add p =>
    by_cases hmem : ht.elems + 1 ≤ ht.max ∨ calloc.gives (ht.bits + 1) = true
    · obtain ⟨_, c, hadd, hrep, hkeeps, t, rfl⟩ := h.add hmem hop
      exact ⟨_, true, hadd, hrep, .inr ⟨c, hkeeps, rfl, rfl, rfl⟩, nofun⟩
    · rw [not_or] at hmem
      exact ⟨ht, false, htableAdd_full (Nat.not_le.1 hmem.1) (Bool.eq_false_iff.2 hmem.2), h,
        .inl rfl, nofun⟩

theorem apply_represents (calloc : Nat → Calloc) {s : Htable × List (Op × Bool)} {op : Op}
    (h : s.1.Represents rehash (held s.2)) (hop : op.Reveals s.1) :
    ∃ ht' ok, apply calloc rehash s op = some (ht', s.2 ++ [(op, ok)]) ∧
      ht'.Represents rehash (held (s.2 ++ [(op, ok)])) ∧ op.Masks s.1 ht' ∧
      ∀ p, op = .del p → ok = decide (p ∈ held s.2) := by
  obtain ⟨ht', ok, hperf, hrep, hmasks, hdel⟩ := h.perform (calloc s.2.length) hop
  refine ⟨ht', ok, ?_, held_append s.2 (op, ok) ▸ hrep, hmasks, hdel⟩
  unfold apply
  rw [hperf]
  rfl

/-- The run lemma of the table, on the invariant that it holds what the log says. -/
theorem run_represents {ops : List Op}
    (h : Along (apply calloc rehash) (fun s op => op.Reveals s.1) (init, []) ops) :
    ∃ ht log, run (apply calloc rehash) (init, []) ops = some (ht, log) ∧
      ht.Represents rehash (held log) ∧ Truthful log := by
  obtain ⟨⟨ht, log⟩, hr, hrep, htrue⟩ := run_inv (s := (init, []))
    (I := fun s : Htable × List (Op × Bool) => s.1.Represents rehash (held s.2) ∧ Truthful s.2)
    (fun s op hI hop => by
      obtain ⟨ht', ok, happly, hrep, -, hdel⟩ := apply_represents calloc hI.1 hop
      refine ⟨_, happly, hrep, hI.2.append fun p ok' hx => ?_⟩
      obtain ⟨rfl, rfl⟩ := Prod.mk.inj hx
      exact hdel p rfl)
    ⟨represents_init rehash, fun before p ok hpre => by simp at hpre⟩ h
  exact ⟨ht, log, hr, hrep, htrue⟩

/-- The log has every call of the run. -/
theorem run_log {ops : List Op} {s s' : Htable × List (Op × Bool)}
    (h : run (apply calloc rehash) s ops = some s') :
    s'.2.map Prod.fst = s.2.map Prod.fst ++ ops := by
  induction ops generalizing s with
  | nil =>
    cases h
    exact (List.append_nil _).symm
  | cons op ops ih =>
    obtain ⟨m, hm, h⟩ := Option.bind_eq_some_iff.1 h
    obtain ⟨r, -, rfl⟩ := Option.map_eq_some_iff.1 hm
    rw [ih h, List.map_append, List.append_assoc]
    rfl

/-- **The table is the bag of its log.** Whatever the hashes and however often there is no
memory, a run over pointers that show a bit gets through, a deletion says whether the pointer
was in, and after it the table lists what is in and finds it. -/
theorem run_held {ops : List Op}
    (h : Along (apply calloc rehash) (fun s op => op.Reveals s.1) (init, []) ops) :
    ∃ ht log, run (apply calloc rehash) (init, []) ops = some (ht, log) ∧
      log.map Prod.fst = ops ∧ Truthful log ∧
      (∃ l : List Word, ht.iterate (1 <<< ht.bits) ht.htableFirst = some l ∧ l = held log) ∧
      ∀ hash cmp, ∃ r, ht.htableGet hash cmp = some r ∧
        (∀ c, r = some c → c ∈ held log ∧ cmp c = true) ∧
        ∀ c ∈ held log, rehash c = hash → cmp c = true → r ≠ none := by
  obtain ⟨ht, log, hr, hrep, htrue⟩ := run_represents h
  exact ⟨ht, log, hr, run_log hr, htrue, hrep.iterate, hrep.get⟩

/-- Memory for every table whose size is an `int`. -/
def plenty : Calloc := ⟨fun n => decide (n < 31), fun _ h => decide_eq_false (Nat.not_lt.2 h)⟩

/-- The same, but for the second call of a run. -/
def shortOnce (n : Nat) : Calloc := if n = 1 then ⟨fun _ => false, fun _ _ => rfl⟩ else plenty

theorem run_held_collide : ∃ ht log, run (apply shortOnce fun _ => 7) (init, [])
      [.add 16, .add 24, .add 24, .del 16, .add 40, .del 16] = some (ht, log) ∧
    log.map Prod.fst = [.add 16, .add 24, .add 24, .del 16, .add 40, .del 16] ∧ Truthful log ∧
    (∃ l : List Word, ht.iterate (1 <<< ht.bits) ht.htableFirst = some l ∧ l = held log) ∧
    ∀ hash cmp, ∃ r, ht.htableGet hash cmp = some r ∧
      (∀ c, r = some c → c ∈ held log ∧ cmp c = true) ∧
      ∀ c ∈ held log, 7 = hash → cmp c = true → r ≠ none :=
  run_held (by decide)

/-! ## Which pointers show a bit -/

/-- Bit `k` of the pointers is in the words, and the common bits are below it. -/
structure Shown (ht : Htable) (k : Nat) : Prop where
  bit : ht.commonMask.getLsbD k = false
  above : ∀ i, k < i → ht.commonBits.getLsbD i = false

/-- No pointer has set the mask. -/
def Unset (ht : Htable) : Prop := ht.commonMask = -1 ∧ ht.commonBits = 0

theorem Masked.shown {ht' : Htable} (h : ht.Masked ht') {k : Nat} (hs : ht.Shown k) :
    ht'.Shown k :=
  ⟨h.commonMask ▸ hs.bit, h.commonBits ▸ hs.above⟩

theorem getLsbD_and_not {x y : Word} {i : Nat} (hi : i < 64) :
    (x &&& ~~~y).getLsbD i = (x.getLsbD i && !y.getLsbD i) := by
  rw [BitVec.getLsbD_and, BitVec.getLsbD_not, decide_eq_true hi, Bool.true_and]

/-- `topBit_spec` of a whole pointer. -/
theorem topBit_of_one_lt {p : Word} (h : 1 < p) :
    0 < topBit p 63 ∧ topBit p 63 < 64 ∧ p.getLsbD (topBit p 63) = true ∧
      ∀ i, topBit p 63 < i → p.getLsbD i = false := by
  obtain ⟨hpos, hle, htop, habove⟩ := topBit_spec (by decide) (exists_bit h)
  refine ⟨hpos, Nat.lt_succ_of_le hle, htop, fun i hi => ?_⟩
  by_cases hi' : i ≤ 63
  · exact habove i hi hi'
  · exact BitVec.getLsbD_of_ge p i (by omega)

theorem reveals_of_bit {p : Word} {i : Nat} (hi : 0 < i) (hp : p.getLsbD i = true)
    (hmask : (ht.adopt p).commonMask.getLsbD i = false) : ht.Reveals p := by
  have hlt : i < 64 := BitVec.lt_of_getLsbD hp
  have hbit : (p &&& ~~~(ht.adopt p).commonMask).getLsbD i = true := by
    rw [getLsbD_and_not hlt, hp, hmask]
    rfl
  have hge : 2 ^ i ≤ (p &&& ~~~(ht.adopt p).commonMask).toNat := Nat.ge_two_pow_of_testBit hbit
  have hone : 1 < 2 ^ i := Nat.one_lt_two_pow (Nat.pos_iff_ne_zero.1 hi)
  exact Nat.lt_of_lt_of_le hone hge

/-- The first pointer leaves its top bit alone. -/
theorem shown_updateCommon {p : Word} (hp : 1 < p) (he : ht.elems = 0) :
    (ht.updateCommon p).Shown (topBit p 63) := by
  obtain ⟨-, hlt, -, habove⟩ := topBit_of_one_lt hp
  unfold updateCommon
  rw [if_pos he]
  refine ⟨?_, fun i hi => ?_⟩
  · have htwo : (1 : Word) <<< topBit p 63 = BitVec.twoPow 64 (topBit p 63) :=
      (BitVec.twoPow_eq 64 _).symm
    show (~~~((1 : Word) <<< topBit p 63)).getLsbD _ = false
    rw [htwo, BitVec.getLsbD_not, BitVec.getLsbD_twoPow, decide_eq_true hlt, decide_eq_true rfl]
    rfl
  · show (p &&& ~~~((1 : Word) <<< topBit p 63)).getLsbD i = false
    rw [BitVec.getLsbD_and, habove i hi, Bool.false_and]

/-- A pointer at least as high as bit `k` finds it, or its own top bit, shown. -/
theorem shown_adopt {p : Word} (hp : 1 < p)
    (h : ht.Unset ∨ ∃ k ≤ topBit p 63, ht.Shown k) :
    ∃ k ≤ topBit p 63, (ht.adopt p).Shown k := by
  obtain ⟨-, -, htop, -⟩ := topBit_of_one_lt hp
  by_cases hcommon : p &&& ht.commonMask ≠ ht.commonBits
  · have hadopt : ht.adopt p = ht.updateCommon p := if_pos hcommon
    rw [hadopt]
    by_cases he : ht.elems = 0
    · exact ⟨_, Nat.le_refl _, shown_updateCommon hp he⟩
    · rw [updateCommon_of_ne he]
      rcases h with ⟨hmask, hbits⟩ | ⟨k, hk, hs⟩
      · refine ⟨_, Nat.le_refl _, ?_, fun i _ => ?_⟩
        · show (ht.commonMask &&& ~~~(ht.commonBits ^^^ (p &&& ht.commonMask))).getLsbD _ = false
          have hones : p &&& -1 = p := BitVec.and_allOnes
          have hxor : (0 : Word) ^^^ p = p := BitVec.zero_xor
          rw [hmask, hbits, hones, hxor, getLsbD_and_not (BitVec.lt_of_getLsbD htop), htop,
            Bool.not_true, Bool.and_false]
        · show (ht.commonBits &&& ~~~ht.maskdiff p).getLsbD i = false
          have hz : (0 : Word) &&& ~~~ht.maskdiff p = 0 := BitVec.zero_and
          rw [hbits, hz]
          exact BitVec.getLsbD_zero
      · refine ⟨k, hk, ?_, fun i hi => ?_⟩
        · show (ht.commonMask &&& ~~~ht.maskdiff p).getLsbD k = false
          rw [BitVec.getLsbD_and, hs.bit, Bool.false_and]
        · show (ht.commonBits &&& ~~~ht.maskdiff p).getLsbD i = false
          rw [BitVec.getLsbD_and, hs.above i hi, Bool.false_and]
  · have hadopt : ht.adopt p = ht := if_neg hcommon
    rw [hadopt]
    refine h.resolve_left fun ⟨hmask, hbits⟩ => ?_
    rw [hmask, hbits] at hcommon
    have hones : p &&& -1 = p := BitVec.and_allOnes
    rw [hones] at hcommon
    rw [not_not.1 hcommon] at hp
    exact absurd hp (by decide)

theorem reveals_of_shown {p : Word} (hp : 1 < p) {k : Nat} (hk : k ≤ topBit p 63)
    (h : (ht.adopt p).Shown k) : ht.Reveals p := by
  obtain ⟨hpos, -, htop, -⟩ := topBit_of_one_lt hp
  refine reveals_of_bit hpos htop (Bool.eq_false_iff.2 fun hmask => ?_)
  have hbits := congrArg (fun w : Word => w.getLsbD (topBit p 63)) (ht.adopt_common p)
  simp only [BitVec.getLsbD_and, htop, hmask, Bool.and_self] at hbits
  rcases Nat.lt_or_eq_of_le hk with hlt | rfl
  · rw [h.above _ hlt] at hbits
    cases hbits
  · rw [h.bit] at hmask
    cases hmask

/-- The induction of `along_reveals`: the mask is set by pointers no higher than those to
come. -/
theorem along_of_shown : ∀ {ops : List Op} {s : Htable × List (Op × Bool)},
    s.1.Represents rehash (held s.2) → (∀ p, .add p ∈ ops → 1 < p) →
    ops.Pairwise (fun x y => ∀ p q, x = .add p → y = .add q → topBit p 63 ≤ topBit q 63) →
    (s.1.Unset ∨ ∃ k, s.1.Shown k ∧ ∀ p, .add p ∈ ops → k ≤ topBit p 63) →
    Along (apply calloc rehash) (fun s op => op.Reveals s.1) s ops
  | [], _, _, _, _, _ => trivial
  | op :: ops, s, hrep, hone, hrise, hs => by
    obtain ⟨hhead, hrise⟩ := List.pairwise_cons.1 hrise
    have hone' : ∀ p, .add p ∈ ops → 1 < p := fun p hp => hone p (List.mem_cons_of_mem _ hp)
    have hmem : ∀ p, op = .add p → .add p ∈ op :: ops := by
      rintro p rfl
      exact List.mem_cons_self
    have hadopt : ∀ p, op = .add p → ∃ k ≤ topBit p 63, (s.1.adopt p).Shown k := fun p hp =>
      shown_adopt (hone p (hmem p hp))
        (hs.imp_right fun ⟨k, hk, hle⟩ => ⟨k, hle p (hmem p hp), hk⟩)
    have hop : op.Reveals s.1 := by
      cases op with
      | add p =>
        obtain ⟨k, hk, hshown⟩ := hadopt p rfl
        exact reveals_of_shown (hone p (hmem p rfl)) hk hshown
      | del _ | clear => trivial
    -- a mask that stays is still below what is to come
    have hstay : ∀ {ht' : Htable}, s.1.Masked ht' →
        ht'.Unset ∨ ∃ k, ht'.Shown k ∧ ∀ p, .add p ∈ ops → k ≤ topBit p 63 := fun hm =>
      hs.imp (fun hu => ⟨hm.commonMask.trans hu.1, hm.commonBits.trans hu.2⟩) fun ⟨k, hk, hle⟩ =>
        ⟨k, hm.shown hk, fun p hp => hle p (List.mem_cons_of_mem _ hp)⟩
    refine ⟨hop, fun s' hs' => ?_⟩
    obtain ⟨ht', ok, happly, hrep', hmasks, -⟩ := apply_represents calloc hrep hop
    obtain rfl := Option.some.inj (happly.symm.trans hs')
    refine along_of_shown hrep' hone' hrise ?_
    cases op with
    | clear =>
      have hinit : ht' = init := hmasks
      rw [hinit]
      exact .inl ⟨rfl, rfl⟩
    | del _ => exact hstay hmasks
    | add p =>
      rcases hmasks with rfl | ⟨c, hkeeps, hm⟩
      · exact hstay ⟨rfl, rfl, rfl⟩
      · obtain ⟨k, hk, hshown⟩ := hadopt p rfl
        obtain ⟨hmask, hbits⟩ := hkeeps.adopt p
        exact .inr ⟨k, hm.shown ⟨hmask ▸ hshown.bit, hbits ▸ hshown.above⟩, fun q hq =>
          Nat.le_trans hk (hhead _ hq p q rfl rfl)⟩

/-- **Pointers whose top bits never go down always show a bit**, across deletions, clearings
and failures to grow. -/
theorem along_reveals (calloc : Nat → Calloc) (rehash : Word → Word) {ops : List Op}
    (hone : ∀ p, .add p ∈ ops → 1 < p)
    (hrise : ops.Pairwise fun x y => ∀ p q, x = .add p → y = .add q →
      topBit p 63 ≤ topBit q 63) :
    Along (apply calloc rehash) (fun s op => op.Reveals s.1) (init, []) ops :=
  along_of_shown (represents_init rehash) hone hrise (.inl ⟨rfl, rfl⟩)

theorem along_reveals_heap :
    Along (apply (fun _ => plenty) id) (fun s op => op.Reveals s.1) (init, [])
      [.add 0x5010, .add 0x4ff0, .del 0x5010, .clear, .add 0x4010] :=
  along_reveals (fun _ => plenty) id (by simp) (by simp; decide)

/-! ## A pointer with no bit to show -/

/-- The table of a program whose pointers are even. -/
structure Aligned (ht : Htable) : Prop where
  bit : ht.commonMask.getLsbD 0 = true
  even : ht.commonBits.getLsbD 0 = false
  perfect : ht.perfectBit = 1 ∨ ht.elems = 0 ∧ ht.Unset

theorem aligned_init : init.Aligned := ⟨by decide, by decide, .inr ⟨rfl, rfl, rfl⟩⟩

theorem Aligned.keeps {c : Htable} (h : ht.Aligned) (hk : ht.Keeps c) : c.Aligned where
  bit := hk.commonMask ▸ h.bit
  even := hk.commonBits ▸ h.even
  perfect := h.perfect.imp (fun hp => (hk.perfectBit (by rw [hp]; decide)).trans hp)
    fun ⟨he, hmask, hbits⟩ =>
      ⟨hk.elems.trans he, hk.commonMask.trans hmask, hk.commonBits.trans hbits⟩

theorem one_lt_of_even {p : Word} (h : p ≠ 0) (heven : p.getLsbD 0 = false) : 1 < p := by
  by_contra hle
  have hle' : p.toNat ≤ 1 := Nat.not_lt.1 hle
  have hone : p = 1 := by
    refine BitVec.eq_of_toNat_eq ?_
    have hne : p.toNat ≠ 0 := fun hz => h (BitVec.eq_of_toNat_eq hz)
    show p.toNat = 1
    omega
  rw [hone] at heven
  cases heven

/-- An even pointer leaves the lowest bit to be the perfect one. -/
theorem Aligned.adopt (h : ht.Aligned) {p : Word} (hp : p ≠ 0) (heven : p.getLsbD 0 = false) :
    (ht.adopt p).commonMask.getLsbD 0 = true ∧ (ht.adopt p).commonBits.getLsbD 0 = false ∧
      (ht.adopt p).perfectBit = 1 := by
  have hz : p &&& ht.commonMask ≠ ht.commonBits ∨ ¬ ht.Unset := by
    refine Classical.or_iff_not_imp_right.2 fun hu => ?_
    have hones : p &&& -1 = p := BitVec.and_allOnes
    rw [(not_not.1 hu).1, (not_not.1 hu).2, hones]
    exact hp
  unfold Htable.adopt
  by_cases hcommon : p &&& ht.commonMask ≠ ht.commonBits
  · rw [if_pos hcommon]
    by_cases he : ht.elems = 0
    · obtain ⟨hpos, -⟩ := topBit_of_one_lt (one_lt_of_even hp heven)
      have htwo : (1 : Word) <<< topBit p 63 = BitVec.twoPow 64 (topBit p 63) :=
        (BitVec.twoPow_eq 64 _).symm
      unfold updateCommon
      rw [if_pos he]
      refine ⟨?_, ?_, rfl⟩
      · show (~~~((1 : Word) <<< topBit p 63)).getLsbD 0 = true
        rw [htwo, BitVec.getLsbD_not, BitVec.getLsbD_twoPow,
          decide_eq_false (Nat.pos_iff_ne_zero.1 hpos), Bool.and_false]
        rfl
      · show (p &&& ~~~((1 : Word) <<< topBit p 63)).getLsbD 0 = false
        rw [BitVec.getLsbD_and, heven, Bool.false_and]
    · have hdiff : (ht.maskdiff p).getLsbD 0 = false := by
        unfold maskdiff
        rw [BitVec.getLsbD_xor, BitVec.getLsbD_and, h.even, heven]
        rfl
      have hperfect : ht.perfectBit = 1 := h.perfect.resolve_right fun hr => he hr.1
      rw [updateCommon_of_ne he]
      refine ⟨?_, ?_, ?_⟩
      · show (ht.commonMask &&& ~~~ht.maskdiff p).getLsbD 0 = true
        rw [getLsbD_and_not (by decide), h.bit, hdiff]
        rfl
      · show (ht.commonBits &&& ~~~ht.maskdiff p).getLsbD 0 = false
        rw [BitVec.getLsbD_and, h.even, Bool.false_and]
      · show ht.perfectBit &&& ~~~ht.maskdiff p = 1
        rw [hperfect, within_iff]
        intro i hi hone
        have hi0 : i = 0 := by simpa using hone
        subst hi0
        rw [BitVec.getElem_not, ← BitVec.getLsbD_eq_getElem, hdiff]
        rfl
  · rw [if_neg hcommon]
    exact ⟨h.bit, h.even, h.perfect.resolve_right fun hr => hz.resolve_left hcommon hr.2⟩

theorem run_aligned {ops : List Op}
    (h : Along (apply calloc rehash) (fun s op => op.Reveals s.1) (init, []) ops)
    (heven : ∀ op ∈ ops, ∀ p, op = .add p → p ≠ 0 ∧ p.getLsbD 0 = false) :
    ∃ ht log, run (apply calloc rehash) (init, []) ops = some (ht, log) ∧
      ht.Represents rehash (held log) ∧ ht.Aligned := by
  obtain ⟨⟨ht, log⟩, hr, hrep, hal⟩ := run_inv (s := (init, []))
    (I := fun s : Htable × List (Op × Bool) => s.1.Represents rehash (held s.2) ∧ s.1.Aligned)
    (fun s op hI hop => by
      obtain ⟨ht', ok, happly, hrep, hmasks, -⟩ := apply_represents calloc hI.1 hop.2
      refine ⟨_, happly, hrep, ?_⟩
      cases op with
      | clear =>
        have hinit : ht' = init := hmasks
        rw [hinit]
        exact aligned_init
      | del p =>
        refine ⟨hmasks.commonMask ▸ hI.2.bit, hmasks.commonBits ▸ hI.2.even,
          hI.2.perfect.imp hmasks.perfectBit.trans fun ⟨he, hmask, hbits⟩ =>
            ⟨?_, hmasks.commonMask.trans hmask, hmasks.commonBits.trans hbits⟩⟩
        have hnone := Multiset.card_eq_zero.1 (hI.1.elems.symm.trans he)
        rw [hrep.elems, held_append, hnone]
        rfl
      | add p =>
        rcases hmasks with rfl | ⟨c, hkeeps, hm⟩
        · exact hI.2
        · obtain ⟨hp, heven⟩ := hop.1 p rfl
          obtain ⟨hbit, hlow, hone⟩ := (hI.2.keeps hkeeps).adopt hp heven
          exact ⟨hm.commonMask ▸ hbit, hm.commonBits ▸ hlow, .inl (hm.perfectBit.trans hone)⟩)
    ⟨represents_init rehash, aligned_init⟩ (along_and_mem heven h)
  exact ⟨ht, log, hr, hrep, hal⟩

/-- Under hash 0 the word of a pointer that shows nothing is a free slot, or a mark. -/
theorem Represents.lost {calloc : Calloc} (h : ht.Represents rehash ps) (ha : ht.Aligned)
    (hmem : ht.elems + 1 ≤ ht.max ∨ calloc.gives (ht.bits + 1) = true) {p : Word} (hp : p ≠ 0)
    (heven : p.getLsbD 0 = false) (hno : ¬ ht.Reveals p) :
    ∃ ht', ht.htableAdd calloc rehash 0 p = some (ht', true) ∧ ht'.view.bag = ps := by
  obtain ⟨c, hkeeps, hrep, -, -, hg, hadd⟩ := h.prepare hmem
  obtain ⟨hbit, -, hperfect⟩ := (ha.keeps hkeeps).adopt hp heven
  obtain ⟨t, htab⟩ := Option.isSome_iff_exists.1 hg.table
  obtain ⟨-, hsame⟩ := hrep.adopt_view htab (one_lt_of_even hp heven)
  obtain ⟨t', htab'⟩ := Option.isSome_iff_exists.1 (adopt_table hg.table p)
  have hshow : p &&& ~~~(c.adopt p).commonMask = 0 := by
    by_contra hne
    refine hno (hkeeps.reveals_iff.1 (one_lt_of_even hne ?_))
    rw [BitVec.getLsbD_and, heven, Bool.false_and]
  have hhash : (c.adopt p).getHashPtrBits 0 = 0 := by
    unfold getHashPtrBits
    simp
  have hcard : Multiset.card (c.adopt p).view.bag < (c.adopt p).view.size := by
    have hlt := hrep.load_lt
    have hload := hrep.load
    rw [hsame.bag, hsame.size, hrep.bag, ← hrep.elems]
    show c.elems < 1 <<< c.bits
    omega
  have hb : (c.adopt p).hashBucket 0 < (c.adopt p).view.size := wrap_lt _
  obtain ⟨i, hi, hopen⟩ := Table.exists_open hcard
  obtain ⟨k, hk, rfl⟩ := Table.exists_off ((c.adopt p).hashBucket 0) hi
  obtain ⟨d, -, hdo, -, hplace⟩ := Table.exists_place hb hk hopen
  obtain ⟨q, hq, hloop⟩ : ∃ q, (q = 0 ∨ q = 1) ∧
      (c.adopt p).htAddLoop (1 <<< (c.adopt p).bits) (c.adopt p).perfectBit
        ((c.adopt p).hashBucket 0) =
          some (((c.adopt p).hashBucket 0 + d) % (c.adopt p).view.size, q) := by
    rw [htAddLoop_eq, hperfect]
    refine ⟨_, ?_, congrArg (Option.map _) hplace⟩
    split
    · exact .inl rfl
    · exact .inr rfl
  have hword : (c.adopt p).makeHval p ((c.adopt p).getHashPtrBits 0 ||| q) = q := by
    have hz : ∀ x : Word, 0 ||| x = x := fun _ => BitVec.zero_or
    unfold makeHval
    rw [hshow, hhash, hz, hz]
  have hopen' : ((c.adopt p).slotOf q).isOpen = true := by
    rw [isOpen_slotOf]
    rcases hq with rfl | rfl <;> rfl
  refine ⟨{ (c.adopt p).withTable (Function.update t'
      (((c.adopt p).hashBucket 0 + d) % (c.adopt p).view.size) q) with
      elems := (c.adopt p).elems + 1 }, ?_, ?_⟩
  · rw [hadd 0 p hp]
    unfold htAdd
    rw [hloop]
    show some (_, true) = _
    rw [hword]
    unfold setSlot
    rw [htab']
    rfl
  · show ((c.adopt p).withTable _).view.bag = ps
    rw [view_write, withTable_self htab']
    exact (Table.bag_set_open (Nat.mod_lt _ (c.adopt p).view.size_pos) hdo hopen').trans
      (hsame.bag.trans hrep.bag)

/-- **The bit shown is needed.** After a run over even pointers, an even pointer under hash 0
is added with success. It is in the table just if it shows a bit. -/
theorem add_kept {ops : List Op}
    (h : Along (apply calloc rehash) (fun s op => op.Reveals s.1) (init, []) ops)
    (heven : ∀ op ∈ ops, ∀ p, op = .add p → p ≠ 0 ∧ p.getLsbD 0 = false) {ht : Htable}
    {log : List (Op × Bool)} (hr : run (apply calloc rehash) (init, []) ops = some (ht, log))
    (hmem : ht.elems + 1 ≤ ht.max ∨ (calloc log.length).gives (ht.bits + 1) = true) {p : Word}
    (hp : p ≠ 0) (hp' : p.getLsbD 0 = false) (hhash : rehash p = 0) :
    ∃ ht' l, Op.perform (calloc log.length) rehash ht (.add p) = some (ht', true) ∧
      ht'.iterate (1 <<< ht'.bits) ht'.htableFirst = some l ∧
      (l : Multiset Word) = if ht.Reveals p then p ::ₘ held log else held log := by
  obtain ⟨ht₁, log₁, hr₁, hrep, hal⟩ := run_aligned h heven
  obtain ⟨rfl, rfl⟩ := Prod.mk.inj (Option.some.inj (hr₁.symm.trans hr))
  by_cases hs : ht₁.Reveals p
  · obtain ⟨ht', -, hadd, hrep', -⟩ := hrep.add hmem hs
    obtain ⟨l, hl, hbag⟩ := hrep'.iterate
    exact ⟨ht', l, hadd, hl, hbag.trans (if_pos hs).symm⟩
  · obtain ⟨ht', hadd, hbag'⟩ := hrep.lost hal hmem hp hp' hs
    obtain ⟨l, hl, hbag⟩ := ht'.iterate_bag
    rw [← hhash] at hadd
    exact ⟨ht', l, hadd, hl, (hbag.trans hbag').trans (if_neg hs).symm⟩

theorem add_kept_lost : ∃ ht log,
    run (apply (fun _ => plenty) fun _ => 0) (init, []) [.add 0x30] =
      some (ht, log) ∧ ∃ ht' l, Op.perform plenty (fun _ => 0) ht (.add 0x10) = some (ht', true) ∧
      ht'.iterate (1 <<< ht'.bits) ht'.htableFirst = some l ∧ (l : Multiset Word) = {0x30} := by
  have hal : Along (apply (fun _ => plenty) fun _ => 0) (fun s op => op.Reveals s.1) (init, [])
      [.add 0x30] := by decide
  refine ⟨_, _, rfl, ?_⟩
  obtain ⟨ht', l, hadd, hl, hbag⟩ := add_kept hal (by simp) rfl
    (.inr rfl) (p := 0x10) (by decide) (by decide) rfl
  exact ⟨ht', l, hadd, hl, hbag⟩

end Htable

end MPIre.Ccan

import Mathlib.Algebra.Order.BigOperators.Group.LocallyFinite
import MPIre.Ccan.Loops
/-
# The hash table is a bag of pointers

`Represents rehash ps ht` is the invariant of the table: its words stand for the pointers of
`ps`, each where a search for its hash finds it, and its counters leave room for a free slot.
`represents_init`, `Represents.add`, `Represents.del`, `Represents.get` and
`Represents.iterate` are the contracts of the operations; none of them asks anything of the
hashes.

What `htable_add` asks of a pointer is `Reveals`: the bits that the table does not replace by
bits of the hash make it more than 1. Else its word can come out as the free slot or the mark.
-/
namespace MPIre.Ccan
open Probing Run

namespace Htable

/-- The table has been doubled at least once. -/
structure Grown (ht : Htable) : Prop where
  table : ht.table.isSome = true
  bits_pos : 0 < ht.bits
  /-- `1 << ht->bits` is an `int`. -/
  bits_le : ht.bits ≤ 30
  max : ht.max = (3 <<< ht.bits) / 4
  maxWithDeleted : ht.maxWithDeleted = (9 <<< ht.bits) / 10

structure Represents (rehash : Word → Word) (ps : Multiset Word) (ht : Htable) : Prop where
  coded : ht.Coded rehash
  sound : ht.view.Sound (ht.home rehash)
  bag : ht.view.bag = ps
  elems : ht.elems = Multiset.card ps
  /-- Additions do not take marks they overwrite off `deleted`. -/
  marks : ht.view.marks ≤ ht.deleted
  room : ht.elems ≤ ht.max
  load : ht.elems + ht.deleted ≤ ht.maxWithDeleted
  grown : ht = init ∨ ht.Grown

def Reveals (ht : Htable) (p : Word) : Prop := 1 < p &&& ~~~(ht.adopt p).commonMask

instance (ht : Htable) (p : Word) : Decidable (ht.Reveals p) :=
  inferInstanceAs (Decidable (_ < _))

variable {ht : Htable} {rehash : Word → Word} {ps : Multiset Word}

theorem Grown.limits (hg : ht.Grown) :
    ht.max ≤ ht.maxWithDeleted ∧ ht.maxWithDeleted < 1 <<< ht.bits ∧ 0 < ht.max := by
  obtain ⟨b, hb⟩ := Nat.exists_eq_add_of_le' hg.bits_pos
  rw [hg.max, hg.maxWithDeleted, hb]
  simp only [Nat.shiftLeft_eq, Nat.pow_succ]
  have hpos := Nat.two_pow_pos b
  omega

theorem init_free : ∀ i < init.view.size, init.view.slot i = .free := fun _ _ => rfl

theorem represents_init (rehash : Word → Word) : init.Represents rehash 0 where
  coded := ⟨by decide, by decide, fun i _ hv => (Bool.false_ne_true hv).elim,
    fun i _ hv => (Bool.false_ne_true hv).elim⟩
  sound := Table.sound_of_free init_free _
  bag := Table.bag_of_free init_free
  elems := rfl
  marks := Nat.le_of_eq (Table.marks_of_free init_free)
  room := Nat.le_refl 0
  load := Nat.le_refl 0
  grown := .inl rfl

theorem Represents.load_lt (h : ht.Represents rehash ps) : ht.maxWithDeleted < 1 <<< ht.bits := by
  rcases h.grown with rfl | hg
  · exact Nat.zero_lt_one
  · exact hg.limits.2.1

theorem Represents.exists_free (h : ht.Represents rehash ps) :
    ∃ i < ht.view.size, ht.view.slot i = .free := by
  refine Table.exists_free ?_
  have hlt := h.load_lt
  have hload := h.load
  have hmarks := h.marks
  rw [h.bag, ← h.elems]
  show _ < 1 <<< ht.bits
  omega

theorem Represents.mem_iff (h : ht.Represents rehash ps) {p : Word} :
    p ∈ ps ↔ ∃ i < ht.view.size, ht.view.slot i = .full p := by
  rw [← h.bag, Table.mem_bag]

/-! ## Searching -/

/-- What `htable_get` and `htable_del` find is in the table, and they do not miss what has the
hash they look for. -/
theorem Represents.find (h : ht.Represents rehash ps) (hash : Word) (cmp : Word → Bool) :
    ∃ r, ht.htableFind hash cmp = some r ∧
      (∀ i c, r = some (i, c) → i < ht.view.size ∧ ht.view.slot i = .full c ∧ cmp c = true) ∧
      ∀ c ∈ ps, rehash c = hash → cmp c = true → r ≠ none := by
  have hb : ht.hashBucket hash < ht.view.size := wrap_lt _
  obtain ⟨l, hl, hn, hlen, hmem⟩ := Table.exists_path hb h.exists_free
  refine ⟨_, htableFind_eq hn hl (Nat.le_of_lt hlen), fun i c hr => ?_, fun c hc hh hcmp => ?_⟩
  · obtain ⟨j, hj, hjc⟩ := Option.map_eq_some_iff.1 hr
    obtain ⟨rfl, rfl⟩ := Prod.mk.inj hjc
    obtain ⟨hlt, hfree⟩ := hmem j (List.mem_of_find?_eq_some hj)
    have hsome := List.find?_some hj
    obtain ⟨hans, hcmp⟩ := Bool.and_eq_true_iff.1 hsome
    have hans := of_decide_eq_true hans
    have hv : entryIsValid (ht.slot j) = true :=
      entryIsValid_iff.2 ⟨fun h0 => hfree (slotOf_free_iff.2 h0), hans.1⟩
    exact ⟨hlt, slotOf_valid hv, hcmp⟩
  · obtain ⟨i, hi, hs⟩ := h.mem_iff.1 hc
    obtain ⟨hv, hraw⟩ := slotOf_full_iff.1 hs
    have hil : i ∈ l := h.sound.mem_path h.exists_free hi hs (by rw [← hh]; rfl) hb hl
    have hans : ht.answers hash i = true := by
      refine decide_eq_true ⟨(entryIsValid_iff.1 hv).2, ?_⟩
      rw [h.coded.extra hi hv, hraw, ← hh]
      rfl
    rw [Ne, Option.map_eq_none_iff, List.find?_eq_none]
    intro hno
    have hcand : (ht.candidate i).2 = c := hraw
    exact hno i hil (by rw [hans, hcand, hcmp]; rfl)

/-- **`htable_get`**, whatever `cmp` accepts besides. -/
theorem Represents.get (h : ht.Represents rehash ps) (hash : Word) (cmp : Word → Bool) :
    ∃ r, ht.htableGet hash cmp = some r ∧ (∀ c, r = some c → c ∈ ps ∧ cmp c = true) ∧
      ∀ c ∈ ps, rehash c = hash → cmp c = true → r ≠ none := by
  obtain ⟨r, hr, hfound, hmiss⟩ := h.find hash cmp
  refine ⟨r.map Prod.snd, ?_, fun c hc => ?_, fun c hc hh hcmp => ?_⟩
  · unfold htableGet
    rw [hr]
    rfl
  · obtain ⟨⟨i, c'⟩, rfl, rfl⟩ := Option.map_eq_some_iff.1 hc
    obtain ⟨hi, hs, hcmp⟩ := hfound i c' rfl
    exact ⟨h.mem_iff.2 ⟨i, hi, hs⟩, hcmp⟩
  · rw [Ne, Option.map_eq_none_iff]
    exact hmiss c hc hh hcmp

/-! ## Deleting -/

theorem Represents.delval (h : ht.Represents rehash ps) {i : Nat} {p : Word}
    (hi : i < ht.view.size) (hs : ht.view.slot i = .full p) :
    ∃ t, ht.htableDelval i =
        some { ht.withTable t with elems := ht.elems - 1, deleted := ht.deleted + 1 } ∧
      ({ ht.withTable t with elems := ht.elems - 1, deleted := ht.deleted + 1 } :
        Htable).Represents rehash (ps.erase p) := by
  obtain ⟨hv, -⟩ := slotOf_full_iff.1 hs
  rcases h.grown with rfl | hg
  · have hzero : entryIsValid 0 = true := hv
    cases hzero
  obtain ⟨t, ht'⟩ := Option.isSome_iff_exists.1 hg.table
  have hset : ht.setSlot i htableDeleted = ht.withTable (Function.update t i htableDeleted) := by
    unfold setSlot
    rw [ht']
    rfl
  have hself := withTable_self ht'
  have hcoded : (ht.withTable (Function.update t i htableDeleted)).Coded rehash :=
    Coded.write (hself.symm ▸ h.coded) (writable_of_not_valid rfl)
  have hview : (ht.withTable (Function.update t i htableDeleted)).view =
      ht.view.set i .deleted := by
    rw [view_write, hself]
    rfl
  have hbag : ps = p ::ₘ (ht.view.set i .deleted).bag := by
    rw [← h.bag]
    exact Table.bag_clear hi hs rfl
  have hmarks := Table.marks_remove hi hs
  have hcard : Multiset.card ps = Multiset.card (ps.erase p) + 1 := by
    have hp : p ∈ ps := h.mem_iff.2 ⟨i, hi, hs⟩
    rw [Multiset.card_erase_of_mem hp, Nat.pred_eq_sub_one]
    have hpos := Multiset.card_pos_iff_exists_mem.2 ⟨p, hp⟩
    omega
  have helems := h.elems
  have hm := h.marks
  have hroom := h.room
  have hload := h.load
  refine ⟨Function.update t i htableDeleted, ?_, ⟨hcoded.common, hcoded.perfect, hcoded.entry,
      hcoded.revealed⟩, ?_, ?_, ?_, ?_, ?_, ?_, .inr ⟨rfl, hg.bits_pos, hg.bits_le, hg.max,
      hg.maxWithDeleted⟩⟩
  · unfold htableDelval
    rw [if_pos ⟨hi, hv⟩, hset]
  · show (ht.withTable _).view.Sound (ht.home rehash)
    rw [hview]
    exact h.sound.remove i
  · show (ht.withTable _).view.bag = _
    rw [hview, hbag, Multiset.erase_cons_head]
  · show ht.elems - 1 = _
    omega
  · show (ht.withTable _).view.marks ≤ ht.deleted + 1
    rw [hview, hmarks]
    omega
  · show ht.elems - 1 ≤ ht.max
    omega
  · show ht.elems - 1 + (ht.deleted + 1) ≤ ht.maxWithDeleted
    omega

/-- **`htable_del`** of a pointer under its own hash takes it once, and says whether it was
there. -/
theorem Represents.del (h : ht.Represents rehash ps) (p : Word) :
    ∃ ht', ht.htableDel (rehash p) p = some (ht', decide (p ∈ ps)) ∧
      ht'.Represents rehash (ps.erase p) ∧ ht'.commonMask = ht.commonMask ∧
      ht'.commonBits = ht.commonBits ∧ ht'.perfectBit = ht.perfectBit := by
  obtain ⟨r, hr, hfound, hmiss⟩ := h.find (rehash p) fun c => c = p
  unfold htableDel
  rw [hr]
  cases r with
  | none =>
    have hno : p ∉ ps := fun hp => hmiss p hp rfl (decide_eq_true rfl) rfl
    refine ⟨ht, ?_, ?_, rfl, rfl, rfl⟩
    · rw [decide_eq_false hno]
      rfl
    · rwa [Multiset.erase_of_notMem hno]
  | some ic =>
    obtain ⟨i, c⟩ := ic
    obtain ⟨hi, hs, hcp⟩ := hfound i c rfl
    obtain rfl : c = p := of_decide_eq_true hcp
    obtain ⟨t, hdel, hrep⟩ := h.delval hi hs
    refine ⟨_, ?_, hrep, rfl, rfl, rfl⟩
    rw [decide_eq_true (h.mem_iff.2 ⟨i, hi, hs⟩)]
    show (ht.htableDelval i).bind _ = _
    rw [hdel]
    rfl

/-! ## Adding -/

/-- The same pointers under the same mask. -/
structure Keeps (ht ht' : Htable) : Prop where
  elems : ht'.elems = ht.elems
  commonMask : ht'.commonMask = ht.commonMask
  commonBits : ht'.commonBits = ht.commonBits
  /-- A perfect bit that was lost may be back. -/
  perfectBit : ht.perfectBit ≠ 0 → ht'.perfectBit = ht.perfectBit

theorem Keeps.refl (ht : Htable) : ht.Keeps ht := ⟨rfl, rfl, rfl, fun _ => rfl⟩

theorem Keeps.trans {ht' ht'' : Htable} (h : ht.Keeps ht') (h' : ht'.Keeps ht'') :
    ht.Keeps ht'' where
  elems := h'.elems.trans h.elems
  commonMask := h'.commonMask.trans h.commonMask
  commonBits := h'.commonBits.trans h.commonBits
  perfectBit hne := by
    have hp := h.perfectBit hne
    rw [h'.perfectBit (hp ▸ hne), hp]

theorem Keeps.adopt {ht' : Htable} (h : ht.Keeps ht') (p : Word) :
    (ht'.adopt p).commonMask = (ht.adopt p).commonMask ∧
      (ht'.adopt p).commonBits = (ht.adopt p).commonBits := by
  unfold Htable.adopt updateCommon
  rw [h.elems, h.commonMask, h.commonBits]
  split
  · split <;> exact ⟨rfl, rfl⟩
  · exact ⟨h.commonMask, h.commonBits⟩

theorem Keeps.reveals_iff {ht' : Htable} (h : ht.Keeps ht') {p : Word} :
    ht'.Reveals p ↔ ht.Reveals p := by
  unfold Reveals
  rw [(h.adopt p).1]

/-- A table whose entries have just been put again. -/
theorem represents_fresh (hc : ht.Coded rehash) (hs : ht.view.Sound (ht.home rehash))
    (hbag : ht.view.bag = ps) (hmarks : ht.view.marks = 0) (he : ht.elems = Multiset.card ps)
    (hroom : ht.elems ≤ ht.max) (hg : ht.Grown) :
    ({ ht with deleted := 0 } : Htable).Represents rehash ps where
  coded := ⟨hc.common, hc.perfect, hc.entry, hc.revealed⟩
  sound := hs
  bag := hbag
  elems := he
  marks := Nat.le_of_eq hmarks
  room := hroom
  load := Nat.le_trans hroom hg.limits.1
  grown := .inr ⟨hg.table, hg.bits_pos, hg.bits_le, hg.max, hg.maxWithDeleted⟩

theorem regainedBit_mask (h : ht.perfectBit &&& ht.commonMask = ht.perfectBit) :
    ht.regainedBit &&& ht.commonMask = ht.regainedBit := by
  unfold regainedBit
  split
  · cases hf : (List.range 64).find? fun i => ht.commonMask &&& ((1 : Word) <<< i) ≠ 0 with
    | none => exact h
    | some i =>
      have hi : i < 64 := List.mem_range.1 (List.mem_of_find?_eq_some hf)
      have hsome := List.find?_some hf
      have hbit := (and_bit_ne_zero_iff hi).1 (of_decide_eq_true hsome)
      have htwo : (1 : Word) <<< i = BitVec.twoPow 64 i := (BitVec.twoPow_eq 64 i).symm
      dsimp only
      rw [htwo, BitVec.and_comm, BitVec.and_twoPow, BitVec.getLsbD_eq_getElem hi, if_pos hbit]
  · exact h

theorem regainedBit_of_ne (h : ht.perfectBit ≠ 0) : ht.regainedBit = ht.perfectBit :=
  if_neg fun hz => h hz.1

theorem doubled_coded (h : ht.Coded rehash) : ht.doubled.Coded rehash where
  common := h.common
  perfect := regainedBit_mask h.perfect
  entry _ _ hv := (Bool.false_ne_true hv).elim
  revealed _ _ hv := (Bool.false_ne_true hv).elim

theorem doubled_free : ∀ i < ht.doubled.view.size, ht.doubled.view.slot i = .free :=
  fun _ _ => rfl

/-- **`double_table`**, when there is memory. -/
theorem Represents.double {calloc : Calloc} (h : ht.Represents rehash ps)
    (hmem : calloc.gives (ht.bits + 1) = true) :
    ∃ ht', ht.doubleTable calloc rehash = some (ht', true) ∧ ht'.Represents rehash ps ∧
      ht.Keeps ht' ∧ ht'.elems + 1 ≤ ht'.max ∧ ht'.Grown := by
  have hbits : ht.bits + 1 ≤ 30 := by
    by_contra hno
    rw [calloc.int _ (by omega)] at hmem
    cases hmem
  have hg : ht.doubled.Grown := ⟨rfl, Nat.succ_pos _, hbits, rfl, rfl⟩
  have hmax : ht.elems + 1 ≤ (3 <<< (ht.bits + 1)) / 4 := by
    have hroom := h.room
    rw [Nat.shiftLeft_eq, Nat.pow_succ]
    have hpos := Nat.two_pow_pos ht.bits
    rcases h.grown with rfl | hg
    · decide
    · rw [hg.max, Nat.shiftLeft_eq] at hroom
      omega
  unfold doubleTable
  rw [if_neg (by simp [hmem])]
  cases htab : ht.table with
  | none =>
    have hinit : ht = init := h.grown.resolve_right fun hg => by
      have hsome := hg.table
      rw [htab] at hsome
      cases hsome
    have hps : ps = 0 := by rw [← h.bag, hinit, Table.bag_of_free init_free]
    refine ⟨_, rfl, ?_, ⟨rfl, rfl, rfl, regainedBit_of_ne⟩, hmax,
      ⟨rfl, hg.bits_pos, hg.bits_le, hg.max, hg.maxWithDeleted⟩⟩
    exact represents_fresh (doubled_coded h.coded) (Table.sound_of_free doubled_free _)
      ((Table.bag_of_free doubled_free).trans hps.symm) (Table.marks_of_free doubled_free) h.elems
      (Nat.le_of_succ_le hmax) hg
  | some old =>
    have hcard : Multiset.card ht.view.bag ≤ ht.doubled.view.size := by
      have hlt := h.load_lt
      have hload := h.load
      have hsize : 1 <<< ht.bits ≤ 1 <<< (ht.bits + 1) := by
        rw [Nat.shiftLeft_eq, Nat.shiftLeft_eq, Nat.pow_succ]
        omega
      rw [h.bag, ← h.elems]
      show ht.elems ≤ 1 <<< (ht.bits + 1)
      omega
    obtain ⟨u, hu, -, hus, hubag, humarks⟩ := Table.Sound.moveAll (t := ht.view)
      (Table.sound_of_free ht.doubled_free (ht.doubled.home rehash)) (home_lt _ _)
      (Table.bag_of_free doubled_free) hcard
    have hshows : ht.doubled.Shows rehash ht.doubled.view ht.doubled :=
      ⟨⟨_, rfl⟩, rfl, doubled_coded h.coded⟩
    obtain ⟨c, hc, ⟨t, rfl⟩, hview, hcoded⟩ :=
      doubleLoop_moveAll ht.doubled htab h.coded rfl rfl hshows hu
    refine ⟨_, congrArg (Option.bind · _) hc, ?_, ⟨rfl, rfl, rfl, regainedBit_of_ne⟩, hmax,
      ⟨rfl, hg.bits_pos, hg.bits_le, hg.max, hg.maxWithDeleted⟩⟩
    refine represents_fresh hcoded (hview ▸ hus) (hview ▸ hubag.trans h.bag) ?_ h.elems
      (Nat.le_of_succ_le hmax) ⟨rfl, hg.bits_pos, hg.bits_le, hg.max, hg.maxWithDeleted⟩
    rw [hview]
    exact Nat.le_zero.1 (Table.marks_of_free ht.doubled_free ▸ humarks)

/-- **`rehash_table`** -/
theorem Represents.rehashTable (h : ht.Represents rehash ps) (hg : ht.Grown) :
    ∃ ht', ht.rehashTable rehash = some ht' ∧ ht'.Represents rehash ps ∧ ht.Keeps ht' ∧
      ht'.max = ht.max ∧ ht'.deleted = 0 ∧ ht'.Grown := by
  obtain ⟨t, ht'⟩ := Option.isSome_iff_exists.1 hg.table
  have hself := withTable_self ht'
  obtain ⟨start, hfind⟩ : ∃ start,
      (List.range (1 <<< ht.bits)).find? (fun i => ht.slot i = 0) = some start := by
    obtain ⟨i, hi, hs⟩ := h.exists_free
    refine Option.isSome_iff_exists.1 (List.find?_isSome.2 ⟨i, List.mem_range.2 hi, ?_⟩)
    exact decide_eq_true (slotOf_free_iff.1 hs)
  have hstart : start < ht.view.size := List.mem_range.1 (List.mem_of_find?_eq_some hfind)
  have hsome := List.find?_some hfind
  have hfree : ht.view.slot start = .free := slotOf_free_iff.2 (of_decide_eq_true hsome)
  have hstays : ∀ i p, ht.stays rehash i p = true → ht.home rehash p = i := fun i p hst =>
    (of_decide_eq_true hst).1
  obtain ⟨u, hu, -, hus, hubag, humarks⟩ :=
    h.sound.compact (home_lt _ _) hstays hstart hfree
  have hshows : ht.Shows rehash ht.view ht := ⟨⟨t, hself.symm⟩, rfl, h.coded⟩
  obtain ⟨c, hc, ⟨t', rfl⟩, hview, hcoded⟩ := rehashLoop_compact hshows hu
  refine ⟨{ ht.withTable t' with deleted := 0 }, ?_, ?_, ⟨rfl, rfl, rfl, fun _ => rfl⟩, rfl, rfl,
    ⟨rfl, hg.bits_pos, hg.bits_le, hg.max, hg.maxWithDeleted⟩⟩
  · unfold Htable.rehashTable
    rw [hfind]
    exact congrArg (Option.bind · _) hc
  · exact represents_fresh hcoded (hview ▸ hus) (hview ▸ hubag.trans h.bag) (hview ▸ humarks)
      h.elems h.room ⟨rfl, hg.bits_pos, hg.bits_le, hg.max, hg.maxWithDeleted⟩

/-- The table is doubled, unless it has room. -/
theorem Represents.makeRoom {calloc : Calloc} (h : ht.Represents rehash ps)
    (hmem : ht.elems + 1 ≤ ht.max ∨ calloc.gives (ht.bits + 1) = true) :
    ∃ ht', ht.makeRoom calloc rehash = some (ht', true) ∧ ht'.Represents rehash ps ∧
      ht.Keeps ht' ∧ ht'.elems + 1 ≤ ht'.max ∧ ht'.Grown := by
  unfold Htable.makeRoom
  by_cases hroom : ht.elems + 1 > ht.max
  · rw [if_pos hroom]
    exact h.double (hmem.resolve_left (Nat.not_le.2 hroom))
  · rw [if_neg hroom]
    have hle := Nat.not_lt.1 hroom
    refine ⟨ht, rfl, h, .refl ht, hle, h.grown.resolve_left fun hinit => ?_⟩
    rw [hinit] at hle
    exact Nat.not_succ_le_zero _ hle

/-- The marks are taken away, unless there is room besides them. -/
theorem Represents.sweep (h : ht.Represents rehash ps) (hg : ht.Grown)
    (hmax : ht.elems + 1 ≤ ht.max) :
    ∃ ht', ht.sweep rehash = some ht' ∧ ht'.Represents rehash ps ∧ ht.Keeps ht' ∧
      ht'.elems + 1 ≤ ht'.max ∧ ht'.elems + 1 + ht'.deleted ≤ ht'.maxWithDeleted ∧
      ht'.Grown := by
  unfold Htable.sweep
  by_cases hload : ht.elems + 1 + ht.deleted > ht.maxWithDeleted
  · rw [if_pos hload]
    obtain ⟨ht', h', hrep, hkeeps, hmax', hdel, hg'⟩ := h.rehashTable hg
    have hroom : ht'.elems + 1 ≤ ht'.max := by rwa [hkeeps.elems, hmax']
    refine ⟨ht', h', hrep, hkeeps, hroom, ?_, hg'⟩
    rw [hdel]
    exact Nat.le_trans hroom hg'.limits.1
  · rw [if_neg hload]
    exact ⟨ht, rfl, h, .refl ht, hmax, Nat.not_lt.1 hload, hg⟩

theorem adopt_table (htab : ht.table.isSome = true) (p : Word) :
    (ht.adopt p).table.isSome = true := by
  unfold adopt
  split
  · unfold updateCommon
    split
    · exact htab
    · exact (Option.isSome_map ..).trans htab
  · exact htab

/-- What `update_common` leaves alone. -/
theorem adopt_frame (p : Word) :
    (ht.adopt p).bits = ht.bits ∧ (ht.adopt p).elems = ht.elems ∧
      (ht.adopt p).deleted = ht.deleted ∧ (ht.adopt p).max = ht.max ∧
      (ht.adopt p).maxWithDeleted = ht.maxWithDeleted := by
  unfold adopt updateCommon
  split
  · split <;> exact ⟨rfl, rfl, rfl, rfl, rfl⟩
  · exact ⟨rfl, rfl, rfl, rfl, rfl⟩

/-- The pointer has the common bits that are left for it. -/
theorem adopt_common (ht : Htable) (p : Word) :
    p &&& (ht.adopt p).commonMask = (ht.adopt p).commonBits := by
  unfold adopt
  by_cases hcommon : p &&& ht.commonMask ≠ ht.commonBits
  · rw [if_pos hcommon]
    by_cases he : ht.elems = 0
    · unfold updateCommon
      rw [if_pos he]
    · rw [updateCommon_of_ne he]
      exact narrowed_self p
  · rw [if_neg hcommon]
    exact not_not.1 hcommon

theorem Represents.adopt_view (h : ht.Represents rehash ps) {t : Nat → Word}
    (htab : ht.table = some t) {p : Word} (hp : 1 < p) :
    (ht.adopt p).Coded rehash ∧ Table.Same ht.view (ht.adopt p).view := by
  unfold adopt
  by_cases hcommon : p &&& ht.commonMask ≠ ht.commonBits
  · rw [if_pos hcommon]
    by_cases he : ht.elems = 0
    · have hnone : ∀ i < 1 <<< ht.bits, entryIsValid (ht.slot i) = false := by
        intro i hi
        by_contra hv
        have hmem := h.mem_iff.2 ⟨i, hi, slotOf_valid (Bool.eq_true_of_not_eq_false hv)⟩
        rw [Multiset.card_eq_zero.1 (h.elems.symm.trans he)] at hmem
        exact Multiset.notMem_zero _ hmem
      exact updateCommon_first htab he hp hnone
    · rw [updateCommon_of_ne he]
      exact h.coded.narrowed htab p
  · rw [if_neg hcommon]
    exact ⟨h.coded, rfl, fun _ _ => rfl⟩

theorem Reveals.one_lt {p : Word} (h : ht.Reveals p) : 1 < p := by
  refine Nat.lt_of_lt_of_le h ?_
  rw [BitVec.toNat_and]
  exact Nat.and_le_left

/-- The end of `htable_add`, when the table has room. -/
theorem Represents.put (h : ht.Represents rehash ps) (hg : ht.Grown)
    (hmax : ht.elems + 1 ≤ ht.max) (hload : ht.elems + 1 + ht.deleted ≤ ht.maxWithDeleted)
    {p : Word} (hp : ht.Reveals p) :
    ∃ t, (ht.adopt p).htAdd p (rehash p) = some ((ht.adopt p).withTable t) ∧
      ({ (ht.adopt p).withTable t with elems := (ht.adopt p).elems + 1 } : Htable).Represents
        rehash (p ::ₘ ps) := by
  obtain ⟨t, htab⟩ := Option.isSome_iff_exists.1 hg.table
  obtain ⟨hcoded, hsame⟩ := h.adopt_view htab hp.one_lt
  obtain ⟨hb, he, hd, hm, hmd⟩ := ht.adopt_frame p
  obtain ⟨t', htab'⟩ := Option.isSome_iff_exists.1 (adopt_table hg.table p)
  have hhome : (ht.adopt p).home rehash = ht.home rehash := by
    funext q
    unfold home hashBucket wrap
    rw [hb]
  have hcard : Multiset.card (ht.adopt p).view.bag < (ht.adopt p).view.size := by
    have hlt := h.load_lt
    rw [hsame.bag, hsame.size, h.bag, ← h.elems]
    show ht.elems < 1 <<< ht.bits
    omega
  have hsound : (ht.adopt p).view.Sound ((ht.adopt p).home rehash) := by
    rw [hhome]
    exact hsame.sound h.sound
  obtain ⟨u, hu, -, hus, hubag, humarks⟩ := hsound.put (e := p) (home_lt _ _ _) hcard
  have hshows : (ht.adopt p).Shows rehash (ht.adopt p).view (ht.adopt p) :=
    ⟨⟨t', (withTable_self htab').symm⟩, rfl, hcoded⟩
  obtain ⟨c, hc, ⟨t'', rfl⟩, hview, hccoded⟩ := htAdd_put hshows (adopt_common ht p) hp hu
  refine ⟨_, hc, ⟨hccoded.common, hccoded.perfect, hccoded.entry, hccoded.revealed⟩, ?_, ?_, ?_,
    ?_, ?_, ?_, .inr ⟨rfl, ?_, ?_, ?_, ?_⟩⟩
  · show ((ht.adopt p).withTable t'').view.Sound ((ht.adopt p).home rehash)
    exact hview ▸ hus
  · show ((ht.adopt p).withTable t'').view.bag = _
    rw [hview, hubag, hsame.bag, h.bag]
  · show (ht.adopt p).elems + 1 = _
    rw [he, h.elems, Multiset.card_cons]
  · show ((ht.adopt p).withTable t'').view.marks ≤ (ht.adopt p).deleted
    rw [hview, hd]
    exact Nat.le_trans humarks (hsame.marks ▸ h.marks)
  · show (ht.adopt p).elems + 1 ≤ (ht.adopt p).max
    rwa [he, hm]
  · show (ht.adopt p).elems + 1 + (ht.adopt p).deleted ≤ (ht.adopt p).maxWithDeleted
    rwa [he, hd, hmd]
  · exact hb ▸ hg.bits_pos
  · exact hb ▸ hg.bits_le
  · show (ht.adopt p).max = (3 <<< (ht.adopt p).bits) / 4
    rw [hm, hb, hg.max]
  · show (ht.adopt p).maxWithDeleted = (9 <<< (ht.adopt p).bits) / 10
    rw [hmd, hb, hg.maxWithDeleted]

/-- The two steps of `htable_add` before the pointer matters. -/
theorem Represents.prepare {calloc : Calloc} (h : ht.Represents rehash ps)
    (hmem : ht.elems + 1 ≤ ht.max ∨ calloc.gives (ht.bits + 1) = true) :
    ∃ ht', ht.Keeps ht' ∧ ht'.Represents rehash ps ∧ ht'.elems + 1 ≤ ht'.max ∧
      ht'.elems + 1 + ht'.deleted ≤ ht'.maxWithDeleted ∧ ht'.Grown ∧
      ∀ hash p, p ≠ 0 → ht.htableAdd calloc rehash hash p =
        ((ht'.adopt p).htAdd p hash).map fun c => ({ c with elems := c.elems + 1 }, true) := by
  obtain ⟨ht₁, h₁, hrep₁, hkeeps₁, hmax₁, hg₁⟩ := h.makeRoom hmem
  obtain ⟨ht₂, h₂, hrep₂, hkeeps₂, hmax₂, hload₂, hg₂⟩ := hrep₁.sweep hg₁ hmax₁
  refine ⟨ht₂, hkeeps₁.trans hkeeps₂, hrep₂, hmax₂, hload₂, hg₂, fun hash p hp => ?_⟩
  unfold htableAdd
  rw [h₁]
  show (ht₁.sweep rehash).bind _ = _
  rw [h₂]
  show (if p = 0 then _ else _) = _
  rw [if_neg hp]
  cases (ht₂.adopt p).htAdd p hash <;> rfl

/-- **`htable_add`** of a pointer under its own hash, when there is memory. -/
theorem Represents.add {calloc : Calloc} (h : ht.Represents rehash ps)
    (hmem : ht.elems + 1 ≤ ht.max ∨ calloc.gives (ht.bits + 1) = true) {p : Word}
    (hp : ht.Reveals p) :
    ∃ ht' c, ht.htableAdd calloc rehash (rehash p) p = some (ht', true) ∧
      ht'.Represents rehash (p ::ₘ ps) ∧ ht.Keeps c ∧
      ∃ t, ht' = { (c.adopt p).withTable t with elems := (c.adopt p).elems + 1 } := by
  obtain ⟨c, hkeeps, hrep, hmax, hload, hg, hadd⟩ := h.prepare hmem
  obtain ⟨t, hput, hrep'⟩ := hrep.put hg hmax hload (hkeeps.reveals_iff.2 hp)
  have hp0 : p ≠ 0 := by
    rintro rfl
    exact absurd hp.one_lt (by decide)
  refine ⟨_, c, ?_, hrep', hkeeps, t, rfl⟩
  rw [hadd _ p hp0, hput]
  rfl

/-- A table that cannot grow takes nothing more, and says so. -/
theorem htableAdd_full {calloc : Calloc} {hash p : Word} (hroom : ht.max < ht.elems + 1)
    (hmem : calloc.gives (ht.bits + 1) = false) :
    ht.htableAdd calloc rehash hash p = some (ht, false) := by
  unfold htableAdd makeRoom doubleTable
  rw [if_pos hroom, if_pos hmem]
  rfl

/-! ## Listing -/

theorem iterate_scan (left : Nat) : ∀ {fuel off : Nat}, off + left = 1 <<< ht.bits →
    left ≤ fuel → ∃ l : List Word, ht.iterate fuel (ht.htableScan left off) = some l ∧
      (l : Multiset Word) = ∑ i ∈ Finset.Ico off (off + left), (ht.view.slot i).bag := by
  induction left with
  | zero =>
    intro fuel off _ _
    refine ⟨[], by cases fuel <;> rfl, ?_⟩
    rw [Nat.add_zero, Finset.Ico_self, Finset.sum_empty]
    rfl
  | succ left ih =>
    intro fuel off hoff hfuel
    obtain ⟨fuel, rfl⟩ := Nat.exists_eq_add_of_le' hfuel
    have hsum := Finset.sum_eq_sum_Ico_succ_bot (show off < off + (left + 1) by omega)
      fun i => (ht.view.slot i).bag
    rw [show off + (left + 1) = off + 1 + left by omega] at hsum
    rw [show off + (left + 1) = off + 1 + left by omega, hsum, htableScan]
    cases hv : entryIsValid (ht.slot off) with
    | true =>
      obtain ⟨l, hl, hbag⟩ := @ih (fuel + left) (off + 1) (by omega) (by omega)
      have hnext : ht.htableNext off = ht.htableScan left (off + 1) := by
        unfold htableNext
        rw [← hoff, show off + (left + 1) - (off + 1) = left by omega]
      refine ⟨ht.getRawPtr (ht.slot off) :: l, ?_, ?_⟩
      · rw [if_pos rfl]
        show (ht.iterate (fuel + left) (ht.htableNext off)).map _ = _
        rw [hnext, hl]
        rfl
      · have hslot : ht.view.slot off = .full (ht.getRawPtr (ht.slot off)) := slotOf_valid hv
        rw [hslot, ← Multiset.cons_coe, hbag]
        rfl
    | false =>
      obtain ⟨l, hl, hbag⟩ := @ih (fuel + (left + 1)) (off + 1) (by omega) (by omega)
      have hslot : (ht.view.slot off).bag = 0 :=
        Slot.bag_of_open ((isOpen_slotOf _).trans (by rw [hv]; rfl))
      refine ⟨l, hl, ?_⟩
      rw [hslot, zero_add, hbag]

/-- **`htable_first`** and **`htable_next`** list every pointer as often as it is in. -/
theorem iterate_bag (ht : Htable) : ∃ l : List Word,
    ht.iterate (1 <<< ht.bits) ht.htableFirst = some l ∧ (l : Multiset Word) = ht.view.bag := by
  obtain ⟨l, hl, hbag⟩ := iterate_scan (1 <<< ht.bits) (Nat.zero_add _) (Nat.le_refl _)
  refine ⟨l, hl, ?_⟩
  rw [hbag, Nat.zero_add, Nat.Ico_zero_eq_range]
  rfl

theorem Represents.iterate (h : ht.Represents rehash ps) :
    ∃ l : List Word, ht.iterate (1 <<< ht.bits) ht.htableFirst = some l ∧ l = ps := by
  obtain ⟨l, hl, hbag⟩ := ht.iterate_bag
  exact ⟨l, hl, hbag.trans h.bag⟩

/-- Only the hashes of the pointers that are in matter. -/
theorem Represents.congr (h : ht.Represents rehash ps) {rehash' : Word → Word}
    (heq : ∀ p ∈ ps, rehash' p = rehash p) : ht.Represents rehash' ps where
  coded := by
    refine ⟨h.coded.common, h.coded.perfect, fun i hi hv => ?_, h.coded.revealed⟩
    have hp := heq _ (h.mem_iff.2 ⟨i, hi, slotOf_valid hv⟩)
    have hentry := h.coded.entry i hi hv
    unfold stamp home at hentry ⊢
    rwa [hp]
  sound i hi p hs := by
    have hhome : ht.home rehash' p = ht.home rehash p := by
      unfold home
      rw [heq p (h.mem_iff.2 ⟨i, hi, hs⟩)]
    rw [hhome]
    exact h.sound i hi p hs
  bag := h.bag
  elems := h.elems
  marks := h.marks
  room := h.room
  load := h.load
  grown := h.grown

end Htable

end MPIre.Ccan

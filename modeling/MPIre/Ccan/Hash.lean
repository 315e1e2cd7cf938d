import MPIre.Mpi
import Mathlib.Tactic.IntervalCases
import Mathlib.Tactic.Ring
/-
# The vendored hash (src/ccan/ccan/hash/hash.c, hash.h)

`hash_pointer`, under which the request table files its entries, and the hash it rests on, as a
little-endian machine with pointers of 64 bits computes them.

| here | there |
| --- | --- |
| `rot`, `mix`, `final`  | the macros |
| `hashU32`              | `hash_u32`: a key of 32-bit words |
| `hashlittle`           | `hashlittle`: a key of bytes, read by words, by halves or by bytes |
| `bulk`                 | its `while (length > 12)`, with the body as an argument |
| `last32` … `last8`     | its three `switch`es, whose cases fall through |
| `hashAny`, `hashPointer` | `hash_any`, `hash_pointer` |

How `hashlittle` reads a key depends on where the key lies, what it returns does not
(`hashlittle_congr`). On words it is `hash_u32`, so either branch of `hash_pointer` gives the
same hash (`hashes_eq`).
-/
namespace MPIre.Ccan.Hash

/-- `a`, `b` and `c`. -/
structure Internal where
  a : BitVec 32
  b : BitVec 32
  c : BitVec 32
deriving DecidableEq, Repr

def rot (x : BitVec 32) (k : Nat) : BitVec 32 := x <<< k ||| x >>> (32 - k)

def mix : Internal → Internal
  | ⟨a, b, c⟩ =>
    let a := a - c; let a := a ^^^ rot c 4; let c := c + b
    let b := b - a; let b := b ^^^ rot a 6; let a := a + c
    let c := c - b; let c := c ^^^ rot b 8; let b := b + a
    let a := a - c; let a := a ^^^ rot c 16; let c := c + b
    let b := b - a; let b := b ^^^ rot a 19; let a := a + c
    let c := c - b; let c := c ^^^ rot b 4; let b := b + a
    ⟨a, b, c⟩

def final : Internal → Internal
  | ⟨a, b, c⟩ =>
    let c := c ^^^ b; let c := c - rot b 14
    let a := a ^^^ c; let a := a - rot c 11
    let b := b ^^^ a; let b := b - rot a 25
    let c := c ^^^ b; let c := c - rot b 16
    let a := a ^^^ c; let a := a - rot c 4
    let b := b ^^^ a; let b := b - rot a 14
    let c := c ^^^ b; let c := c - rot b 24
    ⟨a, b, c⟩

/-! ## A key of words -/

/-- `while (length > 3)`. -/
def bulkU32 (k : Nat → BitVec 32) (length : Nat) (s : Internal) :
    (Nat → BitVec 32) × Nat × Internal :=
  if 3 < length then
    bulkU32 (fun i => k (i + 3)) (length - 3) (mix ⟨s.a + k 0, s.b + k 1, s.c + k 2⟩)
  else (k, length, s)
termination_by length

/-- The cases fall through, down to `final`. -/
def lastU32 (k : Nat → BitVec 32) : Nat → Internal → Internal
  | 3, s => lastU32 k 2 { s with c := s.c + k 2 }
  | 2, s => lastU32 k 1 { s with b := s.b + k 1 }
  | 1, s => final { s with a := s.a + k 0 }
  | _, s => s

def hashU32 (k : Nat → BitVec 32) (length : Nat) (initval : BitVec 32) : BitVec 32 :=
  let v : BitVec 32 := 0xdeadbeef#32 + (BitVec.ofNat 32 length) <<< 2 + initval
  let (k, length, s) := bulkU32 k length ⟨v, v, v⟩
  (lastU32 k length s).c

/-! ## A key of bytes -/

section reads

variable (mem : Mem) (k : Addr)

/-- `(uint32_t)k8[0]`. -/
def byte : BitVec 32 := (mem k).toBitVec.setWidth 32

def half : BitVec 32 := byte mem k + byte mem (k + 1) <<< 8

def word : BitVec 32 :=
  byte mem k + byte mem (k + 1) <<< 8 + byte mem (k + 2) <<< 16 + byte mem (k + 3) <<< 24

/-- The bodies of the three loops. -/
def block32 (s : Internal) : Internal :=
  mix ⟨s.a + word mem k, s.b + word mem (k + 4), s.c + word mem (k + 8)⟩

def block16 (s : Internal) : Internal :=
  mix ⟨s.a + (half mem k + half mem (k + 2) <<< 16),
    s.b + (half mem (k + 4) + half mem (k + 6) <<< 16),
    s.c + (half mem (k + 8) + half mem (k + 10) <<< 16)⟩

def block8 (s : Internal) : Internal :=
  mix ⟨s.a + byte mem k + byte mem (k + 1) <<< 8 + byte mem (k + 2) <<< 16 +
      byte mem (k + 3) <<< 24,
    s.b + byte mem (k + 4) + byte mem (k + 5) <<< 8 + byte mem (k + 6) <<< 16 +
      byte mem (k + 7) <<< 24,
    s.c + byte mem (k + 8) + byte mem (k + 9) <<< 8 + byte mem (k + 10) <<< 16 +
      byte mem (k + 11) <<< 24⟩

def last32 : Nat → Internal → Internal
  | 12, s => ⟨s.a + word mem k, s.b + word mem (k + 4), s.c + word mem (k + 8)⟩
  | 11, s => last32 10 { s with c := s.c + byte mem (k + 10) <<< 16 }
  | 10, s => last32 9 { s with c := s.c + byte mem (k + 9) <<< 8 }
  | 9, s => last32 8 { s with c := s.c + byte mem (k + 8) }
  | 8, s => { s with b := s.b + word mem (k + 4), a := s.a + word mem k }
  | 7, s => last32 6 { s with b := s.b + byte mem (k + 6) <<< 16 }
  | 6, s => last32 5 { s with b := s.b + byte mem (k + 5) <<< 8 }
  | 5, s => last32 4 { s with b := s.b + byte mem (k + 4) }
  | 4, s => { s with a := s.a + word mem k }
  | 3, s => last32 2 { s with a := s.a + byte mem (k + 2) <<< 16 }
  | 2, s => last32 1 { s with a := s.a + byte mem (k + 1) <<< 8 }
  | 1, s => { s with a := s.a + byte mem k }
  | _, s => s

def last16 : Nat → Internal → Internal
  | 12, s => ⟨s.a + (half mem k + half mem (k + 2) <<< 16),
      s.b + (half mem (k + 4) + half mem (k + 6) <<< 16),
      s.c + (half mem (k + 8) + half mem (k + 10) <<< 16)⟩
  | 11, s => last16 10 { s with c := s.c + byte mem (k + 10) <<< 16 }
  | 10, s => ⟨s.a + (half mem k + half mem (k + 2) <<< 16),
      s.b + (half mem (k + 4) + half mem (k + 6) <<< 16), s.c + half mem (k + 8)⟩
  | 9, s => last16 8 { s with c := s.c + byte mem (k + 8) }
  | 8, s => { s with
      b := s.b + (half mem (k + 4) + half mem (k + 6) <<< 16)
      a := s.a + (half mem k + half mem (k + 2) <<< 16) }
  | 7, s => last16 6 { s with b := s.b + byte mem (k + 6) <<< 16 }
  | 6, s => { s with
      b := s.b + half mem (k + 4)
      a := s.a + (half mem k + half mem (k + 2) <<< 16) }
  | 5, s => last16 4 { s with b := s.b + byte mem (k + 4) }
  | 4, s => { s with a := s.a + (half mem k + half mem (k + 2) <<< 16) }
  | 3, s => last16 2 { s with a := s.a + byte mem (k + 2) <<< 16 }
  | 2, s => { s with a := s.a + half mem k }
  | 1, s => { s with a := s.a + byte mem k }
  | _, s => s

def last8 : Nat → Internal → Internal
  | 12, s => last8 11 { s with c := s.c + byte mem (k + 11) <<< 24 }
  | 11, s => last8 10 { s with c := s.c + byte mem (k + 10) <<< 16 }
  | 10, s => last8 9 { s with c := s.c + byte mem (k + 9) <<< 8 }
  | 9, s => last8 8 { s with c := s.c + byte mem (k + 8) }
  | 8, s => last8 7 { s with b := s.b + byte mem (k + 7) <<< 24 }
  | 7, s => last8 6 { s with b := s.b + byte mem (k + 6) <<< 16 }
  | 6, s => last8 5 { s with b := s.b + byte mem (k + 5) <<< 8 }
  | 5, s => last8 4 { s with b := s.b + byte mem (k + 4) }
  | 4, s => last8 3 { s with a := s.a + byte mem (k + 3) <<< 24 }
  | 3, s => last8 2 { s with a := s.a + byte mem (k + 2) <<< 16 }
  | 2, s => last8 1 { s with a := s.a + byte mem (k + 1) <<< 8 }
  | 1, s => { s with a := s.a + byte mem k }
  | _, s => s

end reads

def bulk (block : Addr → Internal → Internal) (k : Addr) (length : Nat) (s : Internal) :
    Addr × Nat × Internal :=
  if 12 < length then bulk block (k + 12) (length - 12) (block k s) else (k, length, s)
termination_by length

/-- One of the three ways to read a key: the last block is not mixed, and an empty one is not
even finished. -/
def readBy (block : Addr → Internal → Internal) (last : Addr → Nat → Internal → Internal)
    (key : Addr) (length : Nat) (val2 : BitVec 32) : BitVec 32 × BitVec 32 :=
  let v := 0xdeadbeef#32 + BitVec.ofNat 32 length + val2
  let (k, length, s) := bulk block key length ⟨v, v, v⟩
  if length = 0 then (s.c, val2)
  else
    let s := final (last k length s)
    (s.c, s.b)

/-- The hash, and what is left in `*val2`. -/
def hashlittle (mem : Mem) (key : Addr) (length : Nat) (val2 : BitVec 32) :
    BitVec 32 × BitVec 32 :=
  if key % 4 = 0 then readBy (block32 mem) (last32 mem) key length val2
  else if key % 2 = 0 then readBy (block16 mem) (last16 mem) key length val2
  else readBy (block8 mem) (last8 mem) key length val2

def hashAny (mem : Mem) (key : Addr) (length : Nat) (base : BitVec 32) : BitVec 32 :=
  (hashlittle mem key length base).1

/-- The pointer read as an array of two `uint32_t`. -/
def hashPointer (p : BitVec 64) (base : BitVec 32) : BitVec 32 :=
  hashU32 (fun i => (p >>> (32 * i)).setWidth 32) 2 base

/-! ## What all three ways read -/

/-- The `n` bytes from `k` on, the first the lowest. -/
def le (mem : Mem) (k : Addr) : Nat → BitVec 32
  | 0 => 0
  | n + 1 => byte mem k + le mem (k + 1) n <<< 8

/-- Four bytes to each of `a`, `b` and `c`, as long as there are some. -/
def absorb (mem : Mem) (k : Addr) (n : Nat) (s : Internal) : Internal where
  a := s.a + le mem k (min n 4)
  b := s.b + le mem (k + 4) (min (n - 4) 4)
  c := s.c + le mem (k + 8) (min (n - 8) 4)

theorem half_eq (mem : Mem) (k : Addr) : half mem k = le mem k 2 := by
  simp [half, le]

theorem word_eq (mem : Mem) (k : Addr) : word mem k = le mem k 4 := by
  simp [word, le, BitVec.shiftLeft_add_distrib, ← BitVec.shiftLeft_add, BitVec.add_assoc,
    Int.add_assoc]

theorem add_swap (x y z : BitVec 32) : x + (y + z) = y + (x + z) := by
  rw [← BitVec.add_assoc, BitVec.add_comm x y, BitVec.add_assoc]

section last

variable (mem : Mem) (k : Addr) {n : Nat}

theorem last32_eq (hn : n ≤ 12) (s : Internal) : last32 mem k n s = absorb mem k n s := by
  interval_cases n <;>
    simp [last32, absorb, word_eq, le, BitVec.shiftLeft_add_distrib, ← BitVec.shiftLeft_add,
      Int.add_assoc, BitVec.add_comm, add_swap]

theorem last16_eq (hn : n ≤ 12) (s : Internal) : last16 mem k n s = absorb mem k n s := by
  interval_cases n <;>
    simp [last16, absorb, half_eq, le, BitVec.shiftLeft_add_distrib,
      ← BitVec.shiftLeft_add, Int.add_assoc, BitVec.add_comm, BitVec.add_assoc, add_swap]

theorem last8_eq (hn : n ≤ 12) (s : Internal) : last8 mem k n s = absorb mem k n s := by
  interval_cases n <;>
    simp [last8, absorb, le, BitVec.shiftLeft_add_distrib, ← BitVec.shiftLeft_add,
      Int.add_assoc, BitVec.add_comm, add_swap]

theorem block32_eq (s : Internal) : block32 mem k s = mix (absorb mem k 12 s) := by
  rw [← last32_eq mem k (Nat.le_refl 12)]
  simp only [block32, last32]

theorem block16_eq (s : Internal) : block16 mem k s = mix (absorb mem k 12 s) := by
  rw [← last16_eq mem k (Nat.le_refl 12)]
  simp only [block16, last16]

theorem block8_eq (s : Internal) : block8 mem k s = mix (absorb mem k 12 s) := by
  rw [← last8_eq mem k (Nat.le_refl 12)]
  simp [block8, last8, BitVec.add_assoc, BitVec.add_comm, add_swap]

end last

theorem bulk_length (block : Addr → Internal → Internal) (k : Addr) (length : Nat)
    (s : Internal) : (bulk block k length s).2.1 ≤ 12 := by
  fun_induction bulk block k length s with
  | case1 k length s h ih => exact ih
  | case2 k length s h => exact Nat.le_of_not_lt h

theorem readBy_eq {block : Addr → Internal → Internal}
    {last : Addr → Nat → Internal → Internal} {mem : Mem}
    (hblock : ∀ k s, block k s = mix (absorb mem k 12 s))
    (hlast : ∀ k {n}, n ≤ 12 → ∀ s, last k n s = absorb mem k n s)
    (key : Addr) (length : Nat) (val2 : BitVec 32) :
    readBy block last key length val2 =
      readBy (fun k s => mix (absorb mem k 12 s)) (absorb mem) key length val2 := by
  obtain rfl : block = fun k s => mix (absorb mem k 12 s) := funext fun k => funext (hblock k)
  simp only [readBy]
  rw [hlast _ (bulk_length ..)]

/-- Where the key lies does not matter. -/
theorem hashlittle_eq (mem : Mem) (key : Addr) (length : Nat) (val2 : BitVec 32) :
    hashlittle mem key length val2 =
      readBy (fun k s => mix (absorb mem k 12 s)) (absorb mem) key length val2 := by
  unfold hashlittle
  split
  · exact readBy_eq (block32_eq mem) (last32_eq mem) key length val2
  · split
    · exact readBy_eq (block16_eq mem) (last16_eq mem) key length val2
    · exact readBy_eq (block8_eq mem) (last8_eq mem) key length val2

/-! ## Only the bytes of the key count -/

/-- The same `n` bytes, from `k` on in one memory and from `k'` on in the other. -/
def SameBytes (mem : Mem) (k : Addr) (mem' : Mem) (k' : Addr) (n : Nat) : Prop :=
  ∀ i : Nat, i < n → mem (k + i) = mem' (k' + i)

section same

variable {mem mem' : Mem} {k k' : Addr} {n : Nat}

theorem SameBytes.drop (h : SameBytes mem k mem' k' n) (m : Nat) :
    SameBytes mem (k + m) mem' (k' + m) (n - m) := fun i hi => by
  have hbyte := h (m + i) (by omega)
  rwa [Int.natCast_add, ← Int.add_assoc, ← Int.add_assoc] at hbyte

theorem SameBytes.take (h : SameBytes mem k mem' k' n) {m : Nat} (hm : m ≤ n) :
    SameBytes mem k mem' k' m := fun i hi => h i (Nat.lt_of_lt_of_le hi hm)

theorem le_congr : ∀ {n : Nat} {k k' : Addr}, SameBytes mem k mem' k' n →
    le mem k n = le mem' k' n
  | 0, _, _, _ => rfl
  | n + 1, k, k', h => by
    have hfirst : mem k = mem' k' := by simpa using h 0 n.succ_pos
    have hrest : le mem (k + 1) n = le mem' (k' + 1) n := le_congr (h.drop 1)
    rw [le, le, hrest, byte, byte, hfirst]

theorem absorb_congr (h : SameBytes mem k mem' k' n) (s : Internal) :
    absorb mem k n s = absorb mem' k' n s := by
  have ha := le_congr (h.take (Nat.min_le_left n 4))
  have hb : le mem (k + 4) _ = le mem' (k' + 4) _ :=
    le_congr ((h.drop 4).take (Nat.min_le_left (n - 4) 4))
  have hc : le mem (k + 8) _ = le mem' (k' + 8) _ :=
    le_congr ((h.drop 8).take (Nat.min_le_left (n - 8) 4))
  rw [absorb, ha, hb, hc, absorb]

/-- Both loops end in one state, before the same bytes. -/
theorem bulk_congr (s : Internal) (h : SameBytes mem k mem' k' n) :
    ∃ j j' r t, bulk (fun k s => mix (absorb mem k 12 s)) k n s = (j, r, t) ∧
      bulk (fun k s => mix (absorb mem' k 12 s)) k' n s = (j', r, t) ∧
      SameBytes mem j mem' j' r := by
  fun_induction bulk (fun k s => mix (absorb mem k 12 s)) k n s generalizing k' with
  | case1 k n s hlong ih =>
    rw [bulk.eq_def _ k', if_pos hlong]
    have hblock : absorb mem k 12 s = absorb mem' k' 12 s :=
      absorb_congr (h.take (Nat.le_of_lt hlong)) s
    rw [hblock] at ih ⊢
    exact ih (h.drop 12)
  | case2 k n s hshort =>
    rw [bulk.eq_def _ k', if_neg hshort]
    exact ⟨_, _, _, _, rfl, rfl, h⟩

/-- The hash of a key is a hash of its bytes, however the key is aligned. -/
theorem hashlittle_congr (h : SameBytes mem k mem' k' n) (val2 : BitVec 32) :
    hashlittle mem k n val2 = hashlittle mem' k' n val2 := by
  rw [hashlittle_eq, hashlittle_eq]
  unfold readBy
  obtain ⟨j, j', r, t, hleft, hright, hrest⟩ := bulk_congr
    ⟨0xdeadbeef#32 + BitVec.ofNat 32 n + val2, 0xdeadbeef#32 + BitVec.ofNat 32 n + val2,
      0xdeadbeef#32 + BitVec.ofNat 32 n + val2⟩ h
  simp only [hleft, hright, absorb_congr hrest]

/-- A key of thirteen bytes, read by words and, one address further on, by bytes. -/
theorem hashlittle_congr_moved :
    hashlittle (fun a => UInt8.ofNat (a.toNat * a.toNat)) 0 13 7 =
      hashlittle (fun a => UInt8.ofNat ((a - 1).toNat * (a - 1).toNat)) 1 13 7 :=
  hashlittle_congr (fun i _ => by simp) 7

end same

/-! ## Words -/

/-- The key `k` of `n` words lies at `key`. -/
def WordsAt (mem : Mem) (key : Addr) (k : Nat → BitVec 32) (n : Nat) : Prop :=
  ∀ i : Nat, i < n → k i = word mem (key + 4 * i)

section words

variable {mem : Mem} {key : Addr} {k : Nat → BitVec 32} {n : Nat}

theorem WordsAt.drop (h : WordsAt mem key k n) (m : Nat) :
    WordsAt mem (key + 4 * m) (fun i => k (i + m)) (n - m) := fun i hi => by
  refine (h (i + m) (by omega)).trans (congrArg (word mem) ?_)
  push_cast
  ring

theorem absorb_words (h : WordsAt mem key k n) (hn : 3 ≤ n) (s : Internal) :
    absorb mem key 12 s = ⟨s.a + k 0, s.b + k 1, s.c + k 2⟩ := by
  simp [absorb, ← word_eq, h 0 (by omega), h 1 (by omega), h 2 (by omega)]

theorem lastU32_eq (h : WordsAt mem key k n) (hpos : 0 < n) (hn : n ≤ 3) (s : Internal) :
    lastU32 k n s = final (absorb mem key (4 * n) s) := by
  interval_cases n
  · simp [lastU32, absorb, ← word_eq, le, h 0]
  · simp [lastU32, absorb, ← word_eq, le, h 0, h 1]
  · simp [lastU32, absorb, ← word_eq, h 0, h 1, h 2]

theorem bulkU32_eq (h : WordsAt mem key k n) (s : Internal) :
    ∃ k' j r t, bulkU32 k n s = (k', r, t) ∧
      bulk (fun k s => mix (absorb mem k 12 s)) key (4 * n) s = (j, 4 * r, t) ∧
      WordsAt mem j k' r ∧ r ≤ 3 := by
  fun_induction bulkU32 k n s generalizing key with
  | case1 k n s hlong ih =>
    have hbytes : 4 * n - 12 = 4 * (n - 3) := by omega
    rw [bulk.eq_def _ key, if_pos (by omega), absorb_words h (Nat.le_of_lt hlong), hbytes]
    exact ih (h.drop 3)
  | case2 k n s hshort =>
    rw [bulk.eq_def _ key, if_neg (by omega)]
    exact ⟨_, _, _, _, rfl, rfl, h, Nat.le_of_not_lt hshort⟩

theorem hashU32_words (h : WordsAt mem key k n) (initval : BitVec 32) :
    hashU32 k n initval = hashAny mem key (4 * n) initval := by
  have hlength : (BitVec.ofNat 32 n) <<< 2 = BitVec.ofNat 32 (4 * n) := by
    bv_omega
  rw [hashAny, hashlittle_eq]
  simp only [hashU32, readBy, hlength]
  obtain ⟨k', j, r, t, hleft, hright, hrest, hr⟩ := bulkU32_eq h
    ⟨0xdeadbeef#32 + BitVec.ofNat 32 (4 * n) + initval,
      0xdeadbeef#32 + BitVec.ofNat 32 (4 * n) + initval,
      0xdeadbeef#32 + BitVec.ofNat 32 (4 * n) + initval⟩
  simp only [hleft, hright]
  rcases Nat.eq_zero_or_pos r with rfl | hpos
  · simp [lastU32]
  · rw [if_neg (by omega), lastU32_eq hrest hpos hr]

end words

/-- The bytes of the pointer `p` lie at `key`. -/
def PointerAt (mem : Mem) (key : Addr) (p : BitVec 64) : Prop :=
  ∀ i : Nat, i < 8 → (mem (key + i)).toBitVec = (p >>> (8 * i)).setWidth 8

/-- "The function hash_word() is identical to hashlittle() on little-endian machines, except that
the length has to be measured in uint32_ts rather than in bytes." -/
theorem hashU32_eq (mem : Mem) (key : Addr) (n : Nat) (initval : BitVec 32) :
    hashU32 (fun i => word mem (key + 4 * i)) n initval = hashAny mem key (4 * n) initval :=
  hashU32_words (fun _ _ => rfl) initval

/-- The branch of `hash_pointer` for pointers that are not made of words would return the same:
the hash of the bytes of the pointer, wherever it lies. -/
theorem hashPointer_eq {mem : Mem} {key : Addr} {p : BitVec 64} (h : PointerAt mem key p)
    (base : BitVec 32) : hashPointer p base = hashAny mem key 8 base := by
  refine hashU32_words (n := 2) (fun i hi => ?_) base
  have hb : ∀ j : Nat, j < 4 → byte mem (key + 4 * i + j) =
      ((p >>> (8 * (4 * i + j))).setWidth 8).setWidth 32 := fun j hj => by
    rw [byte, ← h (4 * i + j) (by omega)]
    congr 3
    push_cast
    ring
  have h0 := hb 0 (by omega)
  have h1 := hb 1 (by omega)
  have h2 := hb 2 (by omega)
  have h3 := hb 3 (by omega)
  push_cast at h0 h1 h2 h3
  rw [Int.add_zero] at h0
  rw [word, h0, h1, h2, h3]
  interval_cases i
  · bv_omega
  · bv_omega

/-- **A hash of bytes.** Both hashes of words, `hash_u32` and `hash_pointer`, are that of the
bytes. -/
theorem hashes_eq (mem : Mem) (key : Addr) :
    (∀ n initval, hashU32 (fun i => word mem (key + 4 * i)) n initval =
      hashAny mem key (4 * n) initval) ∧
    ∀ p base, PointerAt mem key p → hashPointer p base = hashAny mem key 8 base :=
  ⟨hashU32_eq mem key, fun _ base h => hashPointer_eq h base⟩

/-- A pointer at an odd address. -/
theorem hashes_eq_odd :
    hashPointer 0x7f10#64 5 =
      hashAny (fun a => if a = 3 then 0x10 else if a = 4 then 0x7f else 0) 3 8 5 :=
  (hashes_eq _ 3).2 _ 5 fun i hi => by interval_cases i <;> rfl

end MPIre.Ccan.Hash

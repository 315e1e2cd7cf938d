import Mathlib.Data.Nat.Notation
import Mathlib.Logic.Function.Basic
/-
# The vendored hash table (src/ccan/ccan/htable)

A table of pointers, searched by linear probing. A slot holds one word. The bits in which all
pointers agree (`commonMask`) need not be stored, and their place is taken by bits of the
hash, one of them (`perfectBit`) saying that the pointer is in the first slot of its search.

| here | there |
| --- | --- |
| `Htable`              | `struct htable` (htable.h:15-24); `rehash` and `priv` are a parameter |
| `Htable.init`         | `HTABLE_INITIALIZER`, `htable_init`; also `htable_clear` |
| `htableVal` …         | `htable_val`, `htable_firstval`, `htable_nextval` (htable.c:67-95) |
| `htableFirst` …       | `htable_first`, `htable_next` (97-113) |
| `htAdd`               | `ht_add` (116-128) |
| `doubleTable`, `rehashTable`, `updateCommon` | 130-234 |
| `htableAdd`, `htableDel`, `htableDelval` | 236-273 |
| `htableGet`           | `htable_get` (htable.h:132-145) |

Words are those of x86_64. `none` is a failed assertion, a read past the end of the table or
a loop without an end.
-/
namespace MPIre.Ccan

/-- `uintptr_t` and `size_t`. -/
abbrev Word := BitVec 64

/-- Whether a call of `calloc` has room for a table of `2 ^ n` slots. The code asks for `1 << n`,
which from `n = 31` on is no `int`. -/
structure Calloc where
  gives : Nat → Bool
  int : ∀ n, 31 ≤ n → gives n = false

def htableDeleted : Word := 1

structure Htable where
  bits : Nat
  elems : Nat
  deleted : Nat
  max : Nat
  maxWithDeleted : Nat
  commonMask : Word
  commonBits : Word
  perfectBit : Word
  /-- `none` is `&ht->perfect_bit`, the one slot of a table nothing was added to. -/
  table : Option (Nat → Word)

def entryIsValid (e : Word) : Bool := htableDeleted < e

/-- `for (i = 63; i > 0; i--) if (p & (1 << i)) break;` from `i` down. -/
def topBit (p : Word) : Nat → Nat
  | 0 => 0
  | i + 1 => if p &&& ((1 : Word) <<< (i + 1)) ≠ 0 then i + 1 else topBit p i

namespace Htable

def init : Htable where
  bits := 0
  elems := 0
  deleted := 0
  max := 0
  maxWithDeleted := 0
  commonMask := -1
  commonBits := 0
  perfectBit := 0
  table := none

variable (ht : Htable)

/-- `ht->table[i]` -/
def slot (i : Nat) : Word :=
  match ht.table with
  | none => ht.perfectBit
  | some t => t i

def setSlot (i : Nat) (e : Word) : Htable :=
  match ht.table with
  | none => { ht with perfectBit := e }
  | some t => { ht with table := some (Function.update t i e) }

/-- `i & ((1 << ht->bits)-1)` -/
def wrap (i : Nat) : Nat := i &&& (1 <<< ht.bits - 1)

def getExtraPtrBits (e : Word) : Word := e &&& ht.commonMask

def getRawPtr (e : Word) : Word := (e &&& ~~~ht.commonMask) ||| ht.commonBits

def makeHval (p bits : Word) : Word := (p &&& ~~~ht.commonMask) ||| bits

def getHashPtrBits (hash : Word) : Word :=
  (hash ^^^ (hash >>> ht.bits)) &&& ht.commonMask &&& ~~~ht.perfectBit

def hashBucket (h : Word) : Nat := ht.wrap h.toNat

/-! ## Searching

A candidate comes with the offset the iterator has then. -/

def htableValLoop (perfect : Word) : Nat → Nat → Word → Option (Option (Nat × Word))
  | 0, _, _ => none
  | fuel + 1, off, h2 =>
    let e := ht.slot off
    if e = 0 then some none
    else if e ≠ htableDeleted ∧ ht.getExtraPtrBits e = h2 then some (some (off, ht.getRawPtr e))
    else htableValLoop perfect fuel (ht.wrap (off + 1)) (h2 &&& ~~~perfect)

def htableVal (off : Nat) (hash perfect : Word) : Option (Option (Nat × Word)) :=
  ht.htableValLoop perfect (1 <<< ht.bits) off (ht.getHashPtrBits hash ||| perfect)

def htableFirstval (hash : Word) : Option (Option (Nat × Word)) :=
  ht.htableVal (ht.hashBucket hash) hash ht.perfectBit

def htableNextval (off : Nat) (hash : Word) : Option (Option (Nat × Word)) :=
  ht.htableVal (ht.wrap (off + 1)) hash 0

/-- `for (…; c; c = htable_nextval(ht, &i, h))` up to a candidate that `cmp` accepts. -/
def candidates (cmp : Word → Bool) (hash : Word) :
    Nat → Option (Nat × Word) → Option (Option (Nat × Word))
  | _, none => some none
  | 0, some _ => none
  | fuel + 1, some (off, c) =>
    if cmp c then some (some (off, c))
    else do candidates cmp hash fuel (← ht.htableNextval off hash)

/-- The loop of `htable_get` and `htable_del`. -/
def htableFind (hash : Word) (cmp : Word → Bool) : Option (Option (Nat × Word)) := do
  ht.candidates cmp hash (1 <<< ht.bits) (← ht.htableFirstval hash)

def htableGet (hash : Word) (cmp : Word → Bool) : Option (Option Word) :=
  (ht.htableFind hash cmp).map (·.map Prod.snd)

/-- The next valid slot from `off` on, of those that are left. -/
def htableScan : Nat → Nat → Option (Nat × Word)
  | 0, _ => none
  | left + 1, off =>
    if entryIsValid (ht.slot off) then some (off, ht.getRawPtr (ht.slot off))
    else htableScan left (off + 1)

def htableFirst : Option (Nat × Word) := ht.htableScan (1 <<< ht.bits) 0

def htableNext (off : Nat) : Option (Nat × Word) :=
  ht.htableScan (1 <<< ht.bits - (off + 1)) (off + 1)

/-- `for (p = htable_first(ht, &iter); p; p = htable_next(ht, &iter))` -/
def iterate : Nat → Option (Nat × Word) → Option (List Word)
  | _, none => some []
  | 0, some _ => none
  | fuel + 1, some (off, p) => (iterate fuel (ht.htableNext off)).map (p :: ·)

/-! ## Adding -/

def htAddLoop : Nat → Word → Nat → Option (Nat × Word)
  | 0, _, _ => none
  | fuel + 1, perfect, i =>
    if entryIsValid (ht.slot i) then htAddLoop fuel 0 (ht.wrap (i + 1)) else some (i, perfect)

def htAdd (new h : Word) : Option Htable := do
  let (i, perfect) ← ht.htAddLoop (1 <<< ht.bits) ht.perfectBit (ht.hashBucket h)
  pure (ht.setSlot i (ht.makeHval new (ht.getHashPtrBits h ||| perfect)))

/-- An entry is put again, with the bits of its new place. -/
def readd (rehash : Word → Word) (e : Word) : Option Htable :=
  ht.htAdd (ht.getRawPtr e) (rehash (ht.getRawPtr e))

/-- The perfect bit a doubled table has: if it was lost, the lowest common bit. -/
def regainedBit : Word :=
  if ht.perfectBit = 0 ∧ ht.commonMask ≠ 0 then
    match (List.range 64).find? fun i => ht.commonMask &&& ((1 : Word) <<< i) ≠ 0 with
    | some i => (1 : Word) <<< i
    | none => ht.perfectBit
  else ht.perfectBit

/-- The new table of `double_table`, with nothing in it yet. -/
def doubled : Htable := { ht with
  bits := ht.bits + 1
  max := (3 <<< (ht.bits + 1)) / 4
  maxWithDeleted := (9 <<< (ht.bits + 1)) / 10
  perfectBit := ht.regainedBit
  table := some fun _ => 0 }

def doubleTable (calloc : Calloc) (rehash : Word → Word) : Option (Htable × Bool) :=
  if calloc.gives (ht.bits + 1) = false then some (ht, false)
  else
    match ht.table with
    | none => some ({ ht.doubled with deleted := 0 }, true)
    | some old => do
      let new ← (List.range (1 <<< ht.bits)).foldlM (fun new i =>
        if entryIsValid (old i) then new.readd rehash (old i) else some new) ht.doubled
      pure ({ new with deleted := 0 }, true)

/-- One turn of the loop of `rehash_table`. -/
def rehashSlot (rehash : Word → Word) (ht : Htable) (h : Nat) : Option Htable :=
  let e := ht.slot h
  if e = 0 then some ht
  else if e = htableDeleted then some (ht.setSlot h 0)
  else if e &&& ht.perfectBit = 0 then (ht.setSlot h 0).readd rehash e
  else some ht

def rehashTable (rehash : Word → Word) : Option Htable := do
  let start ← (List.range (1 <<< ht.bits)).find? fun i => ht.slot i = 0
  let new ← (List.range (1 <<< ht.bits)).foldlM
    (fun new i => rehashSlot rehash new (ht.wrap (i + start))) ht
  pure { new with deleted := 0 }

def updateCommon (p : Word) : Htable :=
  if ht.elems = 0 then
    let mask := ~~~((1 : Word) <<< topBit p 63)
    { ht with commonMask := mask, commonBits := p &&& mask, perfectBit := 1 }
  else
    let maskdiff := ht.commonBits ^^^ (p &&& ht.commonMask)
    let bitsdiff := ht.commonBits &&& maskdiff
    { ht with
      table := ht.table.map fun t i =>
        if entryIsValid (t i) then (t i &&& ~~~maskdiff) ||| bitsdiff else t i
      commonMask := ht.commonMask &&& ~~~maskdiff
      commonBits := ht.commonBits &&& ~~~maskdiff
      perfectBit := ht.perfectBit &&& ~~~maskdiff }

/-- `if (ht->elems+1 > ht->max && !double_table(ht))` -/
def makeRoom (calloc : Calloc) (rehash : Word → Word) : Option (Htable × Bool) :=
  if ht.elems + 1 > ht.max then ht.doubleTable calloc rehash else some (ht, true)

/-- `if (ht->elems+1 + ht->deleted > ht->max_with_deleted) rehash_table(ht);` -/
def sweep (rehash : Word → Word) : Option Htable :=
  if ht.elems + 1 + ht.deleted > ht.maxWithDeleted then ht.rehashTable rehash else some ht

/-- `if (((uintptr_t)p & ht->common_mask) != ht->common_bits) update_common(ht, p);` -/
def adopt (p : Word) : Htable :=
  if p &&& ht.commonMask ≠ ht.commonBits then ht.updateCommon p else ht

def htableAdd (calloc : Calloc) (rehash : Word → Word) (hash p : Word) :
    Option (Htable × Bool) := do
  let (ht, ok) ← ht.makeRoom calloc rehash
  if ok = false then pure (ht, false)
  else
    let ht ← ht.sweep rehash
    if p = 0 then none
    else
      let ht ← (ht.adopt p).htAdd p hash
      pure ({ ht with elems := ht.elems + 1 }, true)

/-! ## Deleting -/

def htableDelval (off : Nat) : Option Htable :=
  if off < 1 <<< ht.bits ∧ entryIsValid (ht.slot off) then
    some { ht.setSlot off htableDeleted with
      elems := ht.elems - 1
      deleted := ht.deleted + 1 }
  else none

def htableDel (h p : Word) : Option (Htable × Bool) := do
  match ← ht.htableFind h fun c => c = p with
  | none => pure (ht, false)
  | some (off, _) => pure (← ht.htableDelval off, true)

end Htable

end MPIre.Ccan

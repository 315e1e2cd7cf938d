import MPIre.Library.HashBag
import MPIre.Mpi
/-
# The request table (src/mpire/mpire.h)

Both libraries keep the receives they have seen posted and not yet waited for in
one hash table, keyed by the address of the request variable.

| here | there |
| --- | --- |
| `Request`     | `request_t` (mpire.h:33-39) |
| `Htable`      | `static struct htable requestHtab` (mpire.h:28): the vendored htable as a bag of `(hash, entry)` pairs |
| `addRequest`  | `add_request` (mpire.h:59-81); `none` is its `exit(EXIT_FAILURE)` |
| `getRequest`  | `get_request` (mpire.h:83-85) |
| `delRequest`  | `del_request` (mpire.h:87-93); `none` is its `exit(EXIT_FAILURE)` |
| `settle`      | the body every wait repeats for one request: look up, move the buffer, delete |

`hash` stands for the vendored `hash_pointer`; nothing is assumed of it.
-/
namespace MPIre
open HashBag

structure Request where
  request : Addr
  datatype : Datatype
  buffer : Addr
  bufsize : Int
deriving DecidableEq, Repr

def Request.toBuf (e : Request) : Buf := ⟨e.buffer, e.bufsize, e.datatype⟩

def Buf.toRequest (b : Buf) (request : Addr) : Request :=
  ⟨request, b.datatype, b.buf, b.count⟩

@[simp] theorem toBuf_toRequest (b : Buf) (a : Addr) : (b.toRequest a).toBuf = b := rfl

abbrev Htable := Bag UInt32 Request

def streq (e : Request) (ptr : Addr) : Bool := e.request == ptr

def getRequest (hash : Addr → UInt32) (ht : Htable) (request : Addr) : Option Request :=
  find ht (hash request) fun e => streq e request

def addRequest (hash : Addr → UInt32) (ht : Htable) (newBuffer : Buf) (newRequest : Addr) :
    Option Htable :=
  match find ht (hash newRequest) fun e => streq e newRequest with
  | some _ => none
  | none => some (add ht (hash newRequest) (newBuffer.toRequest newRequest))

def delRequest (ht : Htable) (hash : UInt32) (ptr : Request) : Option Htable :=
  del ht hash ptr

/-- One turn of a wait. `key` is the pointer the entry is looked up under and
`request` the one it is deleted under; `move` writes or reads the record. -/
def settle {σ : Type} (hash : Addr → UInt32) (move : σ → Buf → Option σ) (key request : Addr)
    (x : σ × Htable) : Option (σ × Htable) :=
  match getRequest hash x.2 key with
  | none => some x
  | some e => do
    let s ← move x.1 e.toBuf
    let ht ← delRequest x.2 (hash request) e
    pure (s, ht)

/-- The waitall loops: one turn for each request variable, in array order. -/
def settleAll {σ : Type} (hash : Addr → UInt32) (move : σ → Buf → Option σ)
    (requests : List Addr) (x : σ × Htable) : Option (σ × Htable) :=
  requests.foldlM (fun x a => settle hash move a a x) x

variable {hash : Addr → UInt32}

/-- What the table knows to be pending on a variable. -/
def Htable.view (hash : Addr → UInt32) (ht : Htable) (a : Addr) : Option Buf :=
  (getRequest hash ht a).map Request.toBuf

/-- The table after `add_request` returned. -/
def Htable.posted (hash : Addr → UInt32) (ht : Htable) (b : Buf) (a : Addr) : Htable :=
  add ht (hash a) (b.toRequest a)

/-- The table after the turn of a wait for variable `a`. -/
def Htable.settled (hash : Addr → UInt32) (ht : Htable) (a : Addr) : Htable :=
  match getRequest hash ht a with
  | none => ht
  | some e => (delRequest ht (hash a) e).getD ht

def Htable.settledAll (hash : Addr → UInt32) (ht : Htable) (as : List Addr) : Htable :=
  as.foldl (Htable.settled hash) ht

/-- The table after a call, whatever the call finds in it. -/
def Htable.after (hash : Addr → UInt32) (ht : Htable) : Call → Htable
  | .irecv _ b _ a => ht.posted hash b a
  | .wait _ a => ht.settled hash a
  | .waitall l count array => ht.settledAll hash (slots l array count)
  | _ => ht

/-- A table as the hooks leave it: filed under `hash`, one entry for an address. -/
def Htable.Sound (hash : Addr → UInt32) (ht : Htable) : Prop :=
  HashBag.Sound hash Request.request ht

theorem Htable.sound_nil : Htable.Sound hash [] := HashBag.sound_nil

theorem view_eq_none_iff {ht : Htable} {a : Addr} :
    ht.view hash a = none ↔ getRequest hash ht a = none := Option.map_eq_none_iff

@[simp] theorem view_nil (a : Addr) : Htable.view hash [] a = none := rfl

/-- A table that is not empty knows a pending receive. -/
theorem exists_view {ht : Htable} (hs : ht.Sound hash) (h : ht ≠ []) :
    ∃ a, ht.view hash a ≠ none := by
  obtain ⟨x, hx⟩ := List.exists_mem_of_ne_nil ht h
  refine ⟨x.2.request, fun hv => ?_⟩
  exact (lookup_eq_none_iff hs).1 (view_eq_none_iff.1 hv) x hx rfl

/-- `add_request` exits exactly on a variable that is still registered. -/
theorem addRequest_eq_none_iff {ht : Htable} {b : Buf} {a : Addr} :
    addRequest hash ht b a = none ↔ ht.view hash a ≠ none := by
  rw [Ne, view_eq_none_iff]
  unfold addRequest getRequest
  split <;> simp_all

theorem addRequest_eq_some {ht : Htable} {b : Buf} {a : Addr} (h : ht.view hash a = none) :
    addRequest hash ht b a = some (ht.posted hash b a) := by
  rw [view_eq_none_iff] at h
  unfold addRequest
  unfold getRequest at h
  rw [h]
  rfl

/-- Everything `add_request` can do if it returns. -/
theorem addRequest_some {ht ht' : Htable} {b : Buf} {a : Addr}
    (h : addRequest hash ht b a = some ht') :
    ht.view hash a = none ∧ ht' = ht.posted hash b a := by
  have hv : ht.view hash a = none := by
    by_contra hv
    rw [addRequest_eq_none_iff.2 hv] at h
    cases h
  rw [addRequest_eq_some hv] at h
  exact ⟨hv, (Option.some.inj h).symm⟩

theorem Htable.Sound.posted {ht : Htable} (hs : ht.Sound hash) {b : Buf} {a : Addr}
    (h : ht.view hash a = none) : (ht.posted hash b a).Sound hash :=
  HashBag.Sound.add hs (e := b.toRequest a) (view_eq_none_iff.1 h)

theorem view_posted (ht : Htable) (b : Buf) (a x : Addr) :
    (ht.posted hash b a).view hash x = if x = a then some b else ht.view hash x := by
  have hx : getRequest hash (ht.posted hash b a) x =
      if a = x then some (b.toRequest a) else getRequest hash ht x :=
    @lookup_add _ _ _ _ hash Request.request _ ht (b.toRequest a) x
  unfold Htable.view
  rw [hx]
  by_cases hxa : x = a
  · subst hxa
    simp
  · rw [if_neg fun e => hxa e.symm, if_neg hxa]

/-- The deletion of a turn finds its entry, so the exit of `del_request` is out of
reach, and no other variable loses anything. -/
theorem settled_spec {ht : Htable} (hs : ht.Sound hash) (a : Addr) :
    (ht.settled hash a).Sound hash ∧
      (∀ x, (ht.settled hash a).view hash x = if x = a then none else ht.view hash x) ∧
      ∀ e, getRequest hash ht a = some e →
        delRequest ht (hash a) e = some (ht.settled hash a) := by
  unfold Htable.settled
  cases h : getRequest hash ht a with
  | none =>
    refine ⟨hs, fun x => ?_, by simp⟩
    by_cases hxa : x = a
    · subst hxa
      rw [if_pos rfl, view_eq_none_iff, h]
    · rw [if_neg hxa]
  | some e =>
    obtain ⟨ht', hd, hs', hl⟩ := del_lookup hs (k := a) (e := e) h
    have hd' : delRequest ht (hash a) e = some ht' := hd
    simp only [hd', Option.getD_some]
    refine ⟨hs', fun x => ?_, fun e' he' => ?_⟩
    · have hx : getRequest hash ht' x = if a = x then none else getRequest hash ht x := hl x
      unfold Htable.view
      rw [hx]
      by_cases hxa : x = a
      · subst hxa
        simp
      · rw [if_neg fun e => hxa e.symm, if_neg hxa]
    · cases he'
      exact hd'

theorem Htable.Sound.settled {ht : Htable} (hs : ht.Sound hash) (a : Addr) :
    (ht.settled hash a).Sound hash := (settled_spec hs a).1

theorem view_settled {ht : Htable} (hs : ht.Sound hash) (a x : Addr) :
    (ht.settled hash a).view hash x = if x = a then none else ht.view hash x :=
  (settled_spec hs a).2.1 x

/-- One turn moves the buffer of the entry, if there is one, and clears it. -/
theorem settle_eq {σ : Type} (move : σ → Buf → Option σ) {ht : Htable} (hs : ht.Sound hash)
    (a : Addr) (s : σ) :
    settle hash move a a (s, ht) =
      ((ht.view hash a).toList.foldlM move s).map (·, ht.settled hash a) := by
  cases h : getRequest hash ht a with
  | none => simp [settle, Htable.view, Htable.settled, h]
  | some e =>
    have hd : delRequest ht (hash a) e = some (ht.settled hash a) := (settled_spec hs a).2.2 e h
    simp only [settle, Htable.view, h, hd]
    cases hm : move s e.toBuf <;> simp [hm]

theorem Htable.Sound.settledAll {as : List Addr} {ht : Htable} (hs : ht.Sound hash) :
    (ht.settledAll hash as).Sound hash := by
  induction as generalizing ht with
  | nil => exact hs
  | cons a as ih => exact ih (hs.settled a)

theorem view_settledAll {as : List Addr} {ht : Htable} (hs : ht.Sound hash) (x : Addr) :
    (ht.settledAll hash as).view hash x = if x ∈ as then none else ht.view hash x := by
  induction as generalizing ht with
  | nil => simp [Htable.settledAll]
  | cons a as ih =>
    have hstep : ht.settledAll hash (a :: as) = (ht.settled hash a).settledAll hash as := rfl
    rw [hstep, ih (hs.settled a), view_settled hs]
    by_cases hx : x = a <;> simp [hx]

/-- The receives a loop over `as` finds under `view`: an address that is repeated has
none the second time. -/
def taken (view : Addr → Option Buf) : List Addr → List Buf
  | [] => []
  | a :: as => (view a).toList ++ taken (fun x => if x = a then none else view x) as

theorem taken_nodup :
    ∀ (as : List Addr) (view : Addr → Option Buf), as.Nodup → taken view as = as.filterMap view
  | [], _, _ => rfl
  | a :: as, view, hn => by
    obtain ⟨ha, hn⟩ := List.nodup_cons.1 hn
    -- clearing `a` does not change what the rest of the array finds
    have hfm : as.filterMap (fun x => if x = a then none else view x) = as.filterMap view := by
      refine List.filterMap_congr fun x hx => ?_
      rw [if_neg (ne_of_mem_of_not_mem hx ha)]
    rw [taken, taken_nodup as _ hn, hfm]
    cases hv : view a <;> simp [hv]

/-- The loop moves the registered buffers of its array in index order, whatever
the table holds besides. -/
theorem settleAll_taken {σ : Type} (move : σ → Buf → Option σ) :
    ∀ (as : List Addr) {ht : Htable} (s : σ), ht.Sound hash →
      settleAll hash move as (s, ht) =
        ((taken (ht.view hash) as).foldlM move s).map (·, ht.settledAll hash as)
  | [], ht, s, _ => by simp [settleAll, Htable.settledAll, taken]
  | a :: as, ht, s, hs => by
    have hstep : settleAll hash move (a :: as) (s, ht) =
        (settle hash move a a (s, ht)).bind (settleAll hash move as) := rfl
    have hview : (ht.settled hash a).view hash = fun x => if x = a then none else ht.view hash x :=
      funext fun x => view_settled hs a x
    have ih := fun s' => settleAll_taken move as s' (hs.settled a)
    rw [hview] at ih
    have hall : ht.settledAll hash (a :: as) = (ht.settled hash a).settledAll hash as := rfl
    rw [hstep, settle_eq move hs, Option.bind_map, hall, taken, List.foldlM_append]
    cases (ht.view hash a).toList.foldlM move s <;> simp [ih]

/-- The same for an array of different addresses. -/
theorem settleAll_eq {σ : Type} (move : σ → Buf → Option σ) (as : List Addr) {ht : Htable} (s : σ)
    (hn : as.Nodup) (hs : ht.Sound hash) :
    settleAll hash move as (s, ht) =
      ((as.filterMap (ht.view hash)).foldlM move s).map (·, ht.settledAll hash as) := by
  rw [settleAll_taken move as s hs, taken_nodup as _ hn]

/-- A wait takes the entries of its variable out of the table. -/
theorem settled_eq_filter {ht : Htable} (hs : ht.Sound hash) (a : Addr) :
    ht.settled hash a = ht.filter (fun x => x.2.request ≠ a) := by
  unfold Htable.settled
  cases h : getRequest hash ht a with
  | none =>
    have hno := (lookup_eq_none_iff hs).1 h
    exact (List.filter_eq_self.2 fun x hx => decide_eq_true (hno x hx)).symm
  | some e =>
    obtain ⟨hm, -⟩ := (lookup_eq_some_iff hs).1 h
    have hd : delRequest ht (hash a) e = some (ht.erase (hash a, e)) := if_pos hm
    simp only [hd, Option.getD_some]
    exact erase_eq hs h

theorem settledAll_eq_filter {as : List Addr} {ht : Htable} (hs : ht.Sound hash) :
    ht.settledAll hash as = ht.filter (fun x => x.2.request ∉ as) := by
  induction as generalizing ht with
  | nil => simp [Htable.settledAll]
  | cons a as ih =>
    have hstep : ht.settledAll hash (a :: as) = (ht.settled hash a).settledAll hash as := rfl
    rw [hstep, ih (hs.settled a), settled_eq_filter hs, List.filter_filter]
    refine List.filter_congr fun x _ => ?_
    simp [Bool.and_comm]

theorem settleAll_single {σ : Type} (move : σ → Buf → Option σ) (a : Addr) (x : σ × Htable) :
    settleAll hash move [a] x = settle hash move a a x := by
  simp [settleAll]

/-- A turn that finds nothing under its key changes nothing. -/
theorem settles_miss {σ : Type} {move : σ → Buf → Option σ}
    {key : Addr → Addr} {x : σ × Htable} :
    ∀ as : List Addr, (∀ a ∈ as, x.2.view hash (key a) = none) →
      as.foldlM (fun x a => settle hash move (key a) a x) x = some x
  | [], _ => rfl
  | a :: as, h => by
    have hmiss : getRequest hash x.2 (key a) = none := view_eq_none_iff.1 (h a (by simp))
    have hturn : settle hash move (key a) a x = some x := by
      unfold settle
      rw [hmiss]
    rw [List.foldlM_cons, hturn]
    exact settles_miss as fun a ha => h a (List.mem_cons_of_mem _ ha)

/-- A turn that returns found nothing, or took an entry out of the table. -/
theorem settle_length {σ : Type} {move : σ → Buf → Option σ} {key a : Addr} {x y : σ × Htable}
    (h : settle hash move key a x = some y) :
    x.2.view hash key = none ∧ y = x ∨ y.2.length < x.2.length := by
  unfold settle at h
  split at h
  · rename_i hmiss
    exact .inl ⟨view_eq_none_iff.2 hmiss, (Option.some.inj h).symm⟩
  · obtain ⟨s, -, h⟩ := Option.bind_eq_some_iff.1 h
    obtain ⟨ht, hd, h⟩ := Option.bind_eq_some_iff.1 h
    cases h
    exact .inr (length_del hd)

/-- A loop that leaves the table as long as it was found nothing. -/
theorem settles_length {σ : Type} {move : σ → Buf → Option σ} {key : Addr → Addr} :
    ∀ (as : List Addr) {x y : σ × Htable},
      as.foldlM (fun x a => settle hash move (key a) a x) x = some y →
        y.2.length ≤ x.2.length ∧
          (y.2.length = x.2.length → ∀ a ∈ as, x.2.view hash (key a) = none)
  | [], x, y, h => by
    cases h
    exact ⟨Nat.le_refl _, fun _ a ha => absurd ha List.not_mem_nil⟩
  | a :: as, x, y, h => by
    obtain ⟨z, hz, h⟩ := Option.bind_eq_some_iff.1 h
    obtain ⟨hle, hrest⟩ := settles_length as h
    rcases settle_length hz with ⟨hmiss, rfl⟩ | hlt
    · refine ⟨hle, fun he b hb => ?_⟩
      rcases List.mem_cons.1 hb with rfl | hb
      · exact hmiss
      · exact hrest he b hb
    · exact ⟨by omega, fun he => by omega⟩

/-- A wait keeps what moving a buffer keeps, under whatever key it looks up. -/
theorem settle_keeps {σ : Type} {move : σ → Buf → Option σ} {P : σ → Prop}
    (hm : ∀ s b s', P s → move s b = some s' → P s') {key a : Addr} {x y : σ × Htable}
    (hx : P x.1) (h : settle hash move key a x = some y) : P y.1 := by
  unfold settle at h
  split at h
  · cases h
    exact hx
  · obtain ⟨s, hs, h⟩ := Option.bind_eq_some_iff.1 h
    obtain ⟨ht, -, h⟩ := Option.bind_eq_some_iff.1 h
    cases h
    exact hm _ _ _ hx hs

theorem settles_keeps {σ : Type} {move : σ → Buf → Option σ} {P : σ → Prop}
    (hm : ∀ s b s', P s → move s b = some s' → P s') {key : Addr → Addr} :
    ∀ (as : List Addr) {x y : σ × Htable}, P x.1 →
      as.foldlM (fun x a => settle hash move (key a) a x) x = some y → P y.1
  | [], _, _, hx, h => by
    cases h
    exact hx
  | a :: as, _, _, hx, h => by
    obtain ⟨z, hz, h⟩ := Option.bind_eq_some_iff.1 h
    exact settles_keeps hm as (settle_keeps hm hx hz) h

theorem settle_sound {σ : Type} {move : σ → Buf → Option σ} {key a : Addr} {x y : σ × Htable}
    (hx : x.2.Sound hash) (h : settle hash move key a x = some y) : y.2.Sound hash := by
  unfold settle at h
  split at h
  · cases h
    exact hx
  · obtain ⟨s, -, h⟩ := Option.bind_eq_some_iff.1 h
    obtain ⟨ht, hd, h⟩ := Option.bind_eq_some_iff.1 h
    cases h
    exact HashBag.Sound.del hx hd

theorem settles_sound {σ : Type} {move : σ → Buf → Option σ} {key : Addr → Addr} :
    ∀ (as : List Addr) {x y : σ × Htable}, x.2.Sound hash →
      as.foldlM (fun x a => settle hash move (key a) a x) x = some y → y.2.Sound hash
  | [], _, _, hx, h => by
    cases h
    exact hx
  | a :: as, _, _, hx, h => by
    obtain ⟨z, hz, h⟩ := Option.bind_eq_some_iff.1 h
    exact settles_sound as (settle_sound hx hz) h

/-- A call keeps the table sound if it posts on an unregistered variable only. -/
theorem Htable.Sound.after {ht : Htable} (hs : ht.Sound hash) {c : Call}
    (hc : ∀ l b comm a, c = .irecv l b comm a → ht.view hash a = none) :
    (ht.after hash c).Sound hash := by
  cases c with
  | irecv l b comm a => exact hs.posted (hc l b comm a rfl)
  | wait l a => exact hs.settled a
  | waitall l count array => exact hs.settledAll
  | _ => exact hs

/-- What a call does to what the table knows. -/
def viewAfter (view : Addr → Option Buf) : Call → Addr → Option Buf
  | .irecv _ b _ a => fun x => if x = a then some b else view x
  | .wait _ a => fun x => if x = a then none else view x
  | .waitall l count array => fun x => if x ∈ slots l array count then none else view x
  | _ => view

/-- Two tables that know the same still do after a call, under any two hash functions. -/
theorem view_after {ht : Htable} (hs : ht.Sound hash) (c : Call) :
    (ht.after hash c).view hash = viewAfter (ht.view hash) c := by
  funext x
  cases c with
  | irecv l b comm a => exact view_posted ht b a x
  | wait l a => exact view_settled hs a x
  | waitall l count array => exact view_settledAll hs x
  | _ => rfl

end MPIre

import MPIre.Inbound
import MPIre.Table
/-
# Which receives the table stands for

MPI knows a pending receive by its handle, the table knows it by the variable it
was posted on. `Tracked` says that the two agree on the receives posted since time
`t`: all of them for the capture library (`t = 0`), those of the captured window
for a replay of it.

They stay in agreement as long as no variable is posted on twice at a time and the
variable waited on holds the handle posted on it (`Call.Disciplined`):
`Tracked.step`. Then a wait finds in the table what MPI completes
(`Tracked.agrees`). Nothing here asks for it where no receive is involved: a
handle of a send may be copied and overwritten at will.
-/
namespace MPIre

/-- A receive into `b` was posted on `a` at time `t` or later and is still pending. -/
def Posted (t : Nat) (ops : Ops) (a : Addr) (b : Buf) : Prop :=
  ∃ h op, ops.lookup h = some op ∧ op.recv = some b ∧ op.request = a ∧ t ≤ op.time

structure Tracked (hash : Addr → UInt32) (t : Nat) (ops : Ops) (ht : Htable) : Prop where
  sound : ht.Sound hash
  view : ∀ a b, ht.view hash a = some b ↔ Posted t ops a b

/-- Of the pending receives, `a` holds the handle of the one posted on it and of no other. -/
def App.Owns (W : World) (p : App) (l : Lang) (a : Addr) : Prop :=
  ∀ x ∈ p.ops.entries, x.2.recv ≠ none → (x.2.request = a ↔ x.1 = W.decode l (p.reqs a))

/-- No pending receive was posted on `a`. -/
def App.Free (p : App) (a : Addr) : Prop :=
  ∀ x ∈ p.ops.entries, x.2.recv ≠ none → x.2.request ≠ a

/-- The receive a wait on `a` would complete was posted at time `t` or later. -/
def App.Since (W : World) (t : Nat) (p : App) (l : Lang) (a : Addr) : Prop :=
  ∀ x ∈ p.ops.entries, x.2.recv ≠ none → x.1 = W.decode l (p.reqs a) → t ≤ x.2.time

/-- No request variable is posted on while it is pending or waited on for another. -/
def Call.Disciplined (W : World) (p : App) : Call → Prop
  | .irecv _ _ _ a => p.Free a
  | .wait l a => p.Owns W l a
  | .waitall l count array => ∀ a ∈ slots l array count, p.Owns W l a
  | _ => True

def Call.Since (W : World) (t : Nat) (p : App) : Call → Prop
  | .wait l a => p.Since W t l a
  | .waitall l count array => ∀ a ∈ slots l array count, p.Since W t l a
  | _ => True

/-- Operations were posted in the past. -/
def App.Timely (p : App) : Prop := ∀ x ∈ p.ops.entries, x.2.time < p.now

variable {hash : Addr → UInt32} {W : World} {p : App} {t : Nat} {ht : Htable}

instance (l : Lang) (a : Addr) : Decidable (p.Owns W l a) :=
  inferInstanceAs (Decidable (∀ x ∈ p.ops.entries,
    x.2.recv ≠ none → (x.2.request = a ↔ x.1 = W.decode l (p.reqs a))))

instance (a : Addr) : Decidable (p.Free a) :=
  inferInstanceAs (Decidable (∀ x ∈ p.ops.entries, x.2.recv ≠ none → x.2.request ≠ a))

instance (l : Lang) (a : Addr) : Decidable (p.Since W t l a) :=
  inferInstanceAs (Decidable (∀ x ∈ p.ops.entries,
    x.2.recv ≠ none → x.1 = W.decode l (p.reqs a) → t ≤ x.2.time))

instance : ∀ c : Call, Decidable (c.Disciplined W p)
  | .irecv _ _ _ a => inferInstanceAs (Decidable (p.Free a))
  | .wait l a => inferInstanceAs (Decidable (p.Owns W l a))
  | .waitall l count array =>
    inferInstanceAs (Decidable (∀ a ∈ slots l array count, p.Owns W l a))
  | .init _ | .finalize _ | .send _ | .isend .. | .barrier _ | .recv .. | .bcast ..
  | .alltoall .. | .alltoallv .. | .allreduce .. | .reduce .. => isTrue trivial

instance : ∀ c : Call, Decidable (c.Since W t p)
  | .wait l a => inferInstanceAs (Decidable (p.Since W t l a))
  | .waitall l count array =>
    inferInstanceAs (Decidable (∀ a ∈ slots l array count, p.Since W t l a))
  | .init _ | .finalize _ | .send _ | .isend .. | .barrier _ | .recv .. | .irecv .. | .bcast ..
  | .alltoall .. | .alltoallv .. | .allreduce .. | .reduce .. => isTrue trivial

theorem mem_entries {ops : Ops} {h : Handle} {op : Op} :
    ⟨h, op⟩ ∈ ops.entries ↔ ops.lookup h = some op := AList.mem_lookup_iff.symm

/-- An empty table stands for the receives posted from now on. -/
theorem tracked_nil (hp : p.Timely) : Tracked hash p.now p.ops [] where
  sound := Htable.sound_nil
  view a b := by
    refine ⟨fun h => by simp at h, ?_⟩
    rintro ⟨h, op, hl, -, -, ht⟩
    exact absurd (hp ⟨h, op⟩ (mem_entries.2 hl)) (Nat.not_lt.2 ht)

/-! ## What a wait finds -/

theorem Tracked.view_eq (hT : Tracked hash t p.ops ht) {l : Lang} {a : Addr}
    (ho : p.Owns W l a) (hs : p.Since W t l a) : ht.view hash a = p.awaitsVar W l a := by
  ext b
  rw [hT.view]
  unfold App.awaitsVar App.awaits
  rw [Option.bind_eq_some_iff]
  constructor
  · rintro ⟨h, op, hl, hr, ha, -⟩
    have hh := (ho ⟨h, op⟩ (mem_entries.2 hl) (by simp [hr])).1 ha
    exact ⟨op, hh ▸ hl, hr⟩
  · rintro ⟨op, hl, hr⟩
    have ha := (ho ⟨_, op⟩ (mem_entries.2 hl) (by simp [hr])).2 rfl
    exact ⟨_, op, hl, hr, ha, hs ⟨_, op⟩ (mem_entries.2 hl) (by simp [hr]) rfl⟩

theorem Tracked.agrees (hT : Tracked hash t p.ops ht) {c : Call} (hd : c.Disciplined W p)
    (hs : c.Since W t p) : Agrees W p (ht.view hash) c := by
  cases c with
  | wait l a => exact hT.view_eq hd hs
  | waitall l count array => exact fun a ha => hT.view_eq (hd a ha) (hs a ha)
  | _ => trivial

theorem since_zero (c : Call) : c.Since W 0 p := by
  cases c with
  | wait l a => exact fun _ _ _ _ => Nat.zero_le _
  | waitall l count array => exact fun _ _ _ _ _ _ => Nat.zero_le _
  | _ => trivial

/-! ## Posts and completions -/

/-- A new handle adds its own operation and disturbs no other. -/
theorem posted_insert {ops : Ops} {h : Handle} (hh : h ∉ ops) (op : Op) {a : Addr} {b : Buf} :
    Posted t (ops.insert h op) a b ↔
      (op.recv = some b ∧ op.request = a ∧ t ≤ op.time) ∨ Posted t ops a b := by
  have hnone : ops.lookup h = none := AList.lookup_eq_none.2 hh
  constructor
  · rintro ⟨k, op', hl, hp⟩
    by_cases hk : k = h
    · subst hk
      rw [AList.lookup_insert] at hl
      cases hl
      exact .inl hp
    · rw [AList.lookup_insert_ne hk] at hl
      exact .inr ⟨k, op', hl, hp⟩
  · rintro (hp | ⟨k, op', hl, hp⟩)
    · exact ⟨h, op, AList.lookup_insert _, hp⟩
    · have hk : k ≠ h := by
        rintro rfl
        rw [hnone] at hl
        cases hl
      exact ⟨k, op', by rw [AList.lookup_insert_ne hk, hl], hp⟩

theorem Tracked.insert_send {ops : Ops} (hT : Tracked hash t ops ht) {h : Handle} (hh : h ∉ ops)
    (a : Addr) (n : Nat) : Tracked hash t (ops.insert h ⟨a, none, n⟩) ht where
  sound := hT.sound
  view x b := by
    rw [hT.view, posted_insert hh]
    simp

theorem Tracked.insert_recv {ops : Ops} (hT : Tracked hash t ops ht) {h : Handle} (hh : h ∉ ops)
    {a : Addr} (b : Buf) {n : Nat} (hn : t ≤ n) (hv : ht.view hash a = none) :
    Tracked hash t (ops.insert h ⟨a, some b, n⟩) (ht.posted hash b a) where
  sound := hT.sound.posted hv
  view x b' := by
    rw [view_posted, posted_insert hh, ← hT.view]
    by_cases hx : x = a
    · subst hx
      simp [hv, hn]
    · simp [hx, Ne.symm hx]

theorem Tracked.view_free (hT : Tracked hash t p.ops ht) {a : Addr} (hf : p.Free a) :
    ht.view hash a = none := by
  rw [Option.eq_none_iff_forall_ne_some]
  intro b hb
  obtain ⟨h, op, hl, hr, ha, -⟩ := (hT.view a b).1 hb
  exact hf ⟨h, op⟩ (mem_entries.2 hl) (by simp [hr]) ha

/-- Completing the handles of owned variables takes exactly those variables' receives. -/
theorem Tracked.complete (hT : Tracked hash t p.ops ht) {l : Lang} {as : List Addr} {ops : Ops}
    (ho : ∀ a ∈ as, p.Owns W l a)
    (hops : ∀ k, ops.lookup k =
      if k ∈ as.map fun a => W.decode l (p.reqs a) then none else p.ops.lookup k) :
    Tracked hash t ops (ht.settledAll hash as) where
  sound := hT.sound.settledAll
  view x b := by
    rw [view_settledAll hT.sound]
    constructor
    · intro hb
      by_cases hx : x ∈ as
      · simp [hx] at hb
      rw [if_neg hx, hT.view] at hb
      obtain ⟨h, op, hl, hr, ha, ht⟩ := hb
      refine ⟨h, op, ?_, hr, ha, ht⟩
      rw [hops, if_neg, hl]
      intro hm
      -- a completed handle belongs to the variable it was waited through
      obtain ⟨a, hma, rfl⟩ := List.mem_map.1 hm
      have := (ho a hma ⟨_, op⟩ (mem_entries.2 hl) (by simp [hr])).2 rfl
      exact hx (by rw [← ha, this]; exact hma)
    · rintro ⟨h, op, hl, hr, ha, ht⟩
      rw [hops] at hl
      by_cases hm : h ∈ as.map fun a => W.decode l (p.reqs a)
      · simp [hm] at hl
      rw [if_neg hm] at hl
      have hx : x ∉ as := by
        intro hx
        have := (ho x hx ⟨h, op⟩ (mem_entries.2 hl) (by simp [hr])).1 ha
        exact hm (List.mem_map.2 ⟨x, hx, this.symm⟩)
      rw [if_neg hx, hT.view]
      exact ⟨h, op, hl, hr, ha, ht⟩

/-! ## One call -/

theorem ops_postVar (hS : W.Succeeds) (p : App) (l : Lang) (a : Addr) (recv : Option Buf) :
    (pmpiPostVar W p l a recv).ops = p.ops.insert (W.fresh p.now p.ops) ⟨a, recv, p.now⟩ := by
  unfold pmpiPostVar pmpiPost
  rw [if_pos (hS p.now)]
  rfl

/-- A posted receive is the one its variable waits for. -/
theorem awaitsVar_posted (hS : W.Succeeds) (p : App) (a : Addr) (b : Buf) :
    (pmpiPostVar W p .c a (some b)).awaitsVar W .c a = some b := by
  have hreq : (pmpiPostVar W p .c a (some b)).reqs a = W.fresh p.now p.ops := by
    unfold pmpiPostVar pmpiPost
    rw [if_pos (hS p.now)]
    exact Function.update_self ..
  show ((pmpiPostVar W p .c a (some b)).ops.lookup _).bind Op.recv = some b
  rw [ops_postVar hS, World.decode, hreq, AList.lookup_insert]
  rfl

theorem lookup_wait (hS : W.Succeeds) (p : App) (h k : Handle) :
    (pmpiWait W p h).1.ops.lookup k = if k = h then none else p.ops.lookup k := by
  unfold pmpiWait
  rw [if_pos (hS p.now)]
  exact lookup_complete W p h k

theorem lookup_waitall (hS : W.Succeeds) (p : App) (hs : List Handle) (k : Handle) :
    (pmpiWaitall W p hs).1.ops.lookup k = if k ∈ hs then none else p.ops.lookup k := by
  unfold pmpiWaitall
  rw [if_pos (hS p.now)]
  exact lookup_completeAll W hs p k

/-- The step lemma: a disciplined call keeps the table in agreement with MPI. -/
theorem Tracked.step (hT : Tracked hash t p.ops ht) (hS : W.Succeeds) (hn : t ≤ p.now)
    {c : Call} (hd : c.Disciplined W p) :
    Tracked hash t (effect W p c).ops (ht.after hash c) := by
  have hfresh : W.fresh p.now p.ops ∉ p.ops := (W.fresh_spec p.now p.ops).2
  cases c with
  | isend l a =>
    rw [show effect W p (.isend l a) = pmpiPostVar W p l a none from rfl, ops_postVar hS]
    exact hT.insert_send hfresh a p.now
  | irecv l b comm a =>
    rw [show effect W p (.irecv l b comm a) = pmpiPostVar W p l a (some b) from rfl,
      ops_postVar hS]
    exact hT.insert_recv hfresh b hn (hT.view_free hd)
  | wait l a =>
    have ho : ∀ x ∈ [a], p.Owns W l x := by
      intro x hx
      rw [List.mem_singleton.1 hx]
      exact hd
    refine hT.complete ho fun k => ?_
    simp only [List.map_cons, List.map_nil, List.mem_singleton]
    cases l <;> exact lookup_wait hS p _ k
  | waitall l count array =>
    refine hT.complete hd fun k => ?_
    cases l <;> exact lookup_waitall hS p _ k
  | _ => exact hT

/-! ## Time -/

theorem now_postVar (p : App) (l : Lang) (a : Addr) (recv : Option Buf) :
    (pmpiPostVar W p l a recv).now = p.now + 1 := by
  unfold pmpiPostVar pmpiPost
  split <;> rfl

theorem now_completeAll (hs : List Handle) (p : App) : (hs.foldl (complete W) p).now = p.now := by
  induction hs generalizing p with
  | nil => rfl
  | cons h hs ih => exact ih _

theorem now_wait (p : App) (h : Handle) : (pmpiWait W p h).1.now = p.now + 1 := by
  unfold pmpiWait
  split <;> rfl

theorem now_waitall (p : App) (hs : List Handle) : (pmpiWaitall W p hs).1.now = p.now + 1 := by
  unfold pmpiWaitall
  split
  · exact congrArg (· + 1) (now_completeAll hs p)
  · rfl

theorem now_effect (p : App) (c : Call) : (effect W p c).now = p.now + 1 := by
  cases c with
  | isend l a => exact now_postVar p l a none
  | irecv l b comm a => exact now_postVar p l a (some b)
  | wait l a => cases l <;> exact now_wait p _
  | waitall l count array => cases l <;> exact now_waitall p _
  | _ => rfl

theorem timely_of_lookup {p' : App} (hp : p.Timely) (hn : p.now ≤ p'.now)
    (h : ∀ k op, p'.ops.lookup k = some op → p.ops.lookup k = some op ∨ op.time < p'.now) :
    p'.Timely := by
  rintro ⟨k, op⟩ hm
  rcases h k op (mem_entries.1 hm) with hl | hlt
  · exact Nat.lt_of_lt_of_le (hp ⟨k, op⟩ (mem_entries.2 hl)) hn
  · exact hlt

theorem App.Timely.step (hp : p.Timely) (hS : W.Succeeds) (c : Call) :
    (effect W p c).Timely := by
  have hnow := now_effect (W := W) p c
  refine timely_of_lookup hp (by omega) fun k op hl => ?_
  have hpost : ∀ a recv, (p.ops.insert (W.fresh p.now p.ops) ⟨a, recv, p.now⟩).lookup k = some op →
      p.ops.lookup k = some op ∨ op.time < (effect W p c).now := by
    intro a recv hl
    by_cases hk : k = W.fresh p.now p.ops
    · subst hk
      rw [AList.lookup_insert] at hl
      cases hl
      exact .inr (by simp [hnow])
    · rw [AList.lookup_insert_ne hk] at hl
      exact .inl hl
  cases c with
  | isend l a =>
    refine hpost a none ?_
    rw [← ops_postVar hS p l a none]
    exact hl
  | irecv l b comm a =>
    refine hpost a (some b) ?_
    rw [← ops_postVar hS p l a (some b)]
    exact hl
  | wait l a =>
    have h' : ∃ h, (if k = h then none else p.ops.lookup k) = some op := by
      cases l <;> exact ⟨_, (lookup_wait hS p _ k).symm.trans hl⟩
    obtain ⟨h, h'⟩ := h'
    by_cases hk : k = h <;> simp_all
  | waitall l count array =>
    have h' : ∃ hs : List Handle, (if k ∈ hs then none else p.ops.lookup k) = some op := by
      cases l <;> exact ⟨_, (lookup_waitall hS p _ k).symm.trans hl⟩
    obtain ⟨hs, h'⟩ := h'
    by_cases hk : k ∈ hs <;> simp_all
  | _ => exact .inl hl

end MPIre

import UbsComm.Umq.ShmLayout

/-!
# Where the buffers of the pool are

Every buffer of the pool is in one of the free lists, in a chain that one of the
processes holds, or in a chain whose offset is in one of the rings. `Holds` says
for each place what it is that its buffers are there: the list is linked from
the head of the place, in the words of that place, and where it is a free list
its length is the counter and its buffers are of its kind. `Inv` is that every
buffer is in exactly one place, in this sense. It is stated for the buffers that
have not got lost, `items`, and for free lists that may be mixed up in the `combine`
mode, where `sorted` does not hold.

An operation moves buffers from one place to another (`Inv.move`): it changes
the links and the heads of these two places only. The moves are those between
the free lists – with the splitting and joining of lists that they come with –,
those between a free list and a chain, and those of a chain from one process to
the other.
-/

namespace Umq

open Links Places Function List Nat

variable {m : List ℕ}

theorem mem_filter_ne {p q : ℕ} (hq : q ≠ p) : q ∈ m.filter (fun b => b ≠ p) ↔ q ∈ m := by simp [hq]

theorem not_mem_filter_ne {p : ℕ} : p ∉ m.filter (fun b => b ≠ p) := by simp

theorem mem_cons_of_ne {p q : ℕ} (hq : q ≠ p) : q ∈ p :: m ↔ q ∈ m := by simp [hq]

/-- The places. -/
inductive ShmPlace where
  | global (withData : Bool)
  | cache (t : ℕ) (withData : Bool)
  | owner (p : ℕ)
  | peer (p : ℕ)
  | tx (offset : ℕ)
  | rx (offset : ℕ)
  deriving DecidableEq

namespace ShmPool

/-- The free list of a kind; its buffers are of this kind if lists are sorted. -/
structure FreeList (pool : ShmPool) (sorted : Prop) (next : ℕ → ℕ) (f : FreeLists)
    (withData : Bool) (l : List ℕ) : Prop where
  seg : Seg next (f.head withData) l 0
  cnt : f.cnt withData = l.length
  kind : sorted → ∀ b ∈ l, pool.kind b = withData

/-- A chain of buffers of one kind, if it is here. -/
structure Chained (pool : ShmPool) (enc next : ℕ → ℕ) (w : ℕ) (here : Prop) (l : List ℕ) :
    Prop where
  coded : here → Coded enc next w l
  ne_nil : here → l ≠ []
  kind : ∃ k, ∀ b ∈ l, pool.kind b = k
  nil : ¬ here → l = []

/-- **The buffers `l` are in a place.** -/
def HoldsIf (pool : ShmPool) (sorted : Prop) (s : ShmState) : ShmPlace → List ℕ → Prop
  | .global k, l => pool.FreeList sorted s.next s.global k l
  | .cache t k, l => pool.FreeList sorted s.next (s.cache t) k l
  | .owner p, l => pool.Chained (pool.addr .owner) s.next p (p ∈ s.owner) l
  | .peer p, l => pool.Chained (pool.addr .remote) s.next p (p ∈ s.peer) l
  | .tx w, l => pool.Chained pool.offsetOf s.next (w &&& umqOffsetDataBits) (w ∈ s.tx) l
  | .rx w, l => pool.Chained pool.offsetOf s.next w (w ∈ s.rx) l

/-- … where every free list is sorted. -/
abbrev Holds (pool : ShmPool) : ShmState → ShmPlace → List ℕ → Prop := pool.HoldsIf True

/-- A place has the head and the counter that it had. -/
def Same (s s' : ShmState) : ShmPlace → Prop
  | .global k => s'.global.head k = s.global.head k ∧ s'.global.cnt k = s.global.cnt k
  | .cache t k => (s'.cache t).head k = (s.cache t).head k ∧ (s'.cache t).cnt k = (s.cache t).cnt k
  | .owner p => p ∈ s'.owner ↔ p ∈ s.owner
  | .peer p => p ∈ s'.peer ↔ p ∈ s.peer
  | .tx w => w ∈ s'.tx ↔ w ∈ s.tx
  | .rx w => w ∈ s'.rx ↔ w ∈ s.rx

/-- **Every buffer that is not lost is in exactly one place.** -/
structure Inv (pool : ShmPool) (sorted : Prop) (items : List ℕ) (s : ShmState)
    (L : ShmPlace → List ℕ) : Prop where
  partition : Partition items L
  subset : items ⊆ pool.blocks
  holds : ∀ X, pool.HoldsIf sorted s X (L X)
  tx_nodup : s.tx.Nodup
  rx_nodup : s.rx.Nodup
  mode : sorted ∨ pool.split = false

variable {pool : ShmPool} {s s' : ShmState} {L : ShmPlace → List ℕ} {X Y Z : ShmPlace}
  {l l' items : List ℕ} {t n p : ℕ} {k : Bool} {sorted : Prop}

section

variable (h : pool.Inv sorted items s L)
include h

theorem Inv.mem {b : ℕ} (hb : b ∈ L X) : b ∈ pool.blocks := h.subset (h.partition.mem_items hb)

theorem Inv.global (k : Bool) :
    pool.FreeList sorted s.next s.global k (L (.global k)) := h.holds (.global k)

theorem Inv.cache (t : ℕ) (k : Bool) :
    pool.FreeList sorted s.next (s.cache t) k (L (.cache t k)) := h.holds (.cache t k)

theorem Inv.owner (p : ℕ) :
    pool.Chained (pool.addr .owner) s.next p (p ∈ s.owner) (L (.owner p)) := h.holds (.owner p)

theorem Inv.peer (p : ℕ) :
    pool.Chained (pool.addr .remote) s.next p (p ∈ s.peer) (L (.peer p)) := h.holds (.peer p)

theorem Inv.tx (w : ℕ) : pool.Chained pool.offsetOf s.next
    (w &&& umqOffsetDataBits) (w ∈ s.tx) (L (.tx w)) := h.holds (.tx w)

theorem Inv.rx (w : ℕ) :
    pool.Chained pool.offsetOf s.next w (w ∈ s.rx) (L (.rx w)) := h.holds (.rx w)

end

theorem update_of_mem {next : ℕ → ℕ} {x b v : ℕ} (hx : x ∈ l) (hb : b ∉ l) :
    update next x v b = next b := update_of_ne (fun heq : b = x => hb (heq ▸ hx)) _ _

theorem FreeList.congr {next next' : ℕ → ℕ} {f f' : FreeLists} (h : pool.FreeList sorted next f k l)
    (hf : f'.head k = f.head k ∧ f'.cnt k = f.cnt k) (hnext : ∀ b ∈ l, next' b = next b) :
    pool.FreeList sorted next' f' k l := by
  refine ⟨?_, hf.2.trans h.cnt, h.kind⟩
  rw [hf.1]
  exact h.seg.congr hnext

theorem Chained.congr {enc next next' : ℕ → ℕ} {w : ℕ} {here here' : Prop}
    (h : pool.Chained enc next w here l) (hhere : here' ↔ here)
    (hnext : ∀ b ∈ l, next' b = next b) : pool.Chained enc next' w here' l :=
  ⟨fun hh => (h.coded (hhere.mp hh)).congr hnext, fun hh => h.ne_nil (hhere.mp hh), h.kind,
    fun hh => h.nil fun hh' => hh (hhere.mpr hh')⟩

/-- What a place holds depends on its head, its counter and the links of its
buffers. -/
theorem HoldsIf.congr (h : pool.HoldsIf sorted s Z l) (hsame : Same s s' Z)
    (hnext : ∀ b ∈ l, s'.next b = s.next b) : pool.HoldsIf sorted s' Z l := by
  cases Z with
  | global k | cache t k => exact FreeList.congr h hsame hnext
  | owner p | peer p | tx w | rx w => exact Chained.congr h hsame hnext

/-- **The rule for moves.** -/
theorem Inv.move (h : pool.Inv sorted items s L) (hne : X ≠ Y) (hX : pool.HoldsIf sorted s' X l)
    (hY : pool.HoldsIf sorted s' Y l') (hperm : (l ++ l').Perm (L X ++ L Y))
    (hsame : ∀ Z, Z ≠ X → Z ≠ Y → Same s s' Z)
    (hnext : ∀ b, b ∉ L X → b ∉ L Y → s'.next b = s.next b) (htx : s'.tx.Nodup)
    (hrx : s'.rx.Nodup) : pool.Inv sorted items s' (moved L X Y l l') := by
  refine ⟨h.partition.moved hne hperm, h.subset, fun Z => ?_, htx, hrx, h.mode⟩
  by_cases hZY : Z = Y
  · rw [hZY, moved_target]
    exact hY
  by_cases hZX : Z = X
  · rw [hZX, moved_source hne]
    exact hX
  rw [moved_of_ne hZX hZY]
  refine (h.holds Z).congr (hsame Z hZX hZY) fun b hb => ?_
  exact hnext b (h.partition.not_mem hb hZX) (h.partition.not_mem hb hZY)

/-! ## The state changes -/

section

variable (f : FreeLists) (head cnt : ℕ)

theorem set_head : (f.set k head cnt).head k = head := update_self _ _ _

theorem set_cnt : (f.set k head cnt).cnt k = cnt := update_self _ _ _

theorem set_of_ne {k' : Bool} (hk : k' ≠ k) :
    (f.set k head cnt).head k' = f.head k' ∧ (f.set k head cnt).cnt k' = f.cnt k' :=
  ⟨update_of_ne hk _ _, update_of_ne hk _ _⟩

end

theorem setCache_self (s : ShmState) (t head cnt : ℕ) :
    (s.setCache t k head cnt).cache t = (s.cache t).set k head cnt :=
  update_self _ _ _

theorem Same.refl (s : ShmState) (Z : ShmPlace) : Same s s Z := by
  cases Z with
  | global k | cache t k => exact ⟨rfl, rfl⟩
  | owner p | peer p | tx w | rx w => exact Iff.rfl

theorem Same.trans {s'' : ShmState} (h : Same s s' Z) (h' : Same s' s'' Z) : Same s s'' Z := by
  cases Z with
  | global k | cache t k => exact ⟨h'.1.trans h.1, h'.2.trans h.2⟩
  | owner p | peer p | tx w | rx w => exact Iff.trans h' h

theorem same_next (s : ShmState) (next : ℕ → ℕ) (Z : ShmPlace) :
    Same s { s with next := next } Z := by
  cases Z with
  | global k | cache t k => exact ⟨rfl, rfl⟩
  | owner p | peer p | tx w | rx w => exact Iff.rfl

theorem same_setGlobal (s : ShmState) (head cnt : ℕ) (hZ : Z ≠ .global k) :
    Same s (s.setGlobal k head cnt) Z := by
  cases Z with
  | global k' => exact set_of_ne _ _ _ fun heq => hZ (heq ▸ rfl)
  | cache t k => exact ⟨rfl, rfl⟩
  | owner p | peer p | tx w | rx w => exact Iff.rfl

theorem same_setCache (s : ShmState) (head cnt : ℕ) (hZ : Z ≠ .cache t k) :
    Same s (s.setCache t k head cnt) Z := by
  cases Z with
  | global k => exact ⟨rfl, rfl⟩
  | cache t' k' =>
    show ((s.setCache t k head cnt).cache t').head k' = _ ∧ _
    by_cases ht : t' = t
    · subst ht
      rw [setCache_self]
      exact set_of_ne _ _ _ fun heq => hZ (heq ▸ rfl)
    · have hcache : (s.setCache t k head cnt).cache _ = _ := update_of_ne ht _ _
      rw [hcache]
      exact ⟨rfl, rfl⟩
  | owner p | peer p | tx w | rx w => exact Iff.rfl

/-- The chains and the rings change only where they have the same members in
the place. -/
theorem same_chains (s : ShmState) {owner peer tx rx : List ℕ}
    (howner : ∀ p, Z = .owner p → (p ∈ owner ↔ p ∈ s.owner))
    (hpeer : ∀ p, Z = .peer p → (p ∈ peer ↔ p ∈ s.peer))
    (htx : ∀ w, Z = .tx w → (w ∈ tx ↔ w ∈ s.tx)) (hrx : ∀ w, Z = .rx w → (w ∈ rx ↔ w ∈ s.rx)) :
    Same s { s with owner := owner, peer := peer, tx := tx, rx := rx } Z := by
  cases Z with
  | global k | cache t k => exact ⟨rfl, rfl⟩
  | owner p => exact howner p rfl
  | peer p => exact hpeer p rfl
  | tx w => exact htx w rfl
  | rx w => exact hrx w rfl

/-! ## Free lists -/

theorem exists_split (hn : n ≠ 0) (hle : n ≤ m.length) :
    ∃ l x o, m = l ++ x :: o ∧ l.length + 1 = n := by
  obtain ⟨n, rfl⟩ := exists_eq_succ_of_ne_zero hn
  refine ⟨m.take n, m[n], m.drop (n + 1), ?_, ?_⟩
  · rw [getElem_cons_drop, take_append_drop]
  · rw [length_take, Nat.min_eq_left (le_of_succ_le hle)]

variable {next : ℕ → ℕ} {f g : FreeLists} {x b : ℕ} {o m : List ℕ}

theorem mem_front (hb : b ∈ l ++ [x]) : b ∈ l ++ x :: o := by
  rw [← singleton_append, ← append_assoc]
  exact mem_append_left o hb

/-- **The front of a free list in front of another one.** -/
theorem FreeList.splice (hf : pool.FreeList sorted next f k (l ++ x :: o))
    (hg : pool.FreeList sorted next g k m)
    (hnodup : ((l ++ x :: o) ++ m).Nodup) :
    pool.FreeList sorted (update next x (g.head k))
      (f.set k (next x) (f.cnt k - (l.length + 1))) k o ∧
      pool.FreeList sorted (update next x (g.head k))
        (g.set k (f.head k) (g.cnt k + (l.length + 1))) k (l ++ x :: m) := by
  have hx := (nodup_cons.mp (nodup_middle.mp (append_assoc l _ m ▸ hnodup))).1
  obtain ⟨hxl, hxo, hxm⟩ : x ∉ l ∧ x ∉ o ∧ x ∉ m := by simpa using hx
  obtain ⟨hnew, hold⟩ := hf.seg.splice hg.seg hxl hxo hxm
  have hcntf : f.cnt k = l.length + (o.length + 1) := by rw [hf.cnt, length_append, length_cons]
  refine ⟨⟨?_, ?_, fun hsorted => ?_⟩, ?_, ?_, fun hsorted => ?_⟩
  · rw [set_head]
    exact hold
  · rw [set_cnt]
    omega
  · exact (forall_mem_cons.mp (forall_mem_append.mp (hf.kind hsorted)).2).2
  · rw [set_head]
    exact hnew
  · rw [set_cnt, hg.cnt, length_append, length_cons]
    omega
  · obtain ⟨hkl, hkx⟩ := forall_mem_append.mp (hf.kind hsorted)
    exact forall_mem_append.mpr ⟨hkl, forall_mem_cons.mpr ⟨hkx x mem_cons_self, hg.kind hsorted⟩⟩

/-- The front of a free list becomes a list of its own. -/
theorem FreeList.pop (hf : pool.FreeList sorted next f k (l ++ x :: o))
    (hnodup : (l ++ x :: o).Nodup) :
    pool.FreeList sorted (update next x 0) (f.set k (next x) (f.cnt k - (l.length + 1))) k o ∧
      Seg (update next x 0) (f.head k) (l ++ [x]) 0 := by
  have hnil : pool.FreeList sorted next ⟨fun _ => 0, fun _ => 0⟩ k [] := ⟨rfl, rfl, fun _ => nofun⟩
  obtain ⟨hold, hnew⟩ := hf.splice hnil (by rw [append_nil]; exact hnodup)
  refine ⟨hold, ?_⟩
  have hseg := hnew.seg
  rw [set_head] at hseg
  exact hseg

theorem FreeList.push (hg : pool.FreeList sorted next g k m) (hseg : Seg next p (l ++ [x]) 0)
    (hkind : sorted → ∀ b ∈ l ++ [x], pool.kind b = k) (hnodup : ((l ++ [x]) ++ m).Nodup) :
    pool.FreeList sorted (update next x (g.head k)) (g.set k p (g.cnt k + (l.length + 1))) k
      ((l ++ [x]) ++ m) := by
  have hf : pool.FreeList sorted next ⟨fun _ => p, fun _ => (l ++ [x]).length⟩ k (l ++ [x]) :=
    ⟨hseg, rfl, hkind⟩
  rw [append_assoc]
  exact (hf.splice hg hnodup).2

/-- What is behind the front of a free list goes in front of another one. -/
theorem FreeList.keep {y : ℕ} (hf : pool.FreeList sorted next f k (l ++ x :: (o ++ [y])))
    (hg : pool.FreeList sorted next g k m) (hnodup : ((l ++ x :: (o ++ [y])) ++ m).Nodup) :
    pool.FreeList sorted (update (update next x 0) y (g.head k))
        (f.set k (f.head k) (f.cnt k - (o.length + 1))) k (l ++ [x]) ∧
      pool.FreeList sorted (update (update next x 0) y (g.head k))
        (g.set k (next x) (g.cnt k + (o.length + 1))) k ((o ++ [y]) ++ m) := by
  obtain ⟨hfirst, hm, hapart⟩ := nodup_append.mp hnodup
  obtain ⟨-, hback, hfront⟩ := nodup_append.mp hfirst
  obtain ⟨hxo, ho⟩ := nodup_cons.mp hback
  have hy : y ∈ o ++ [y] := mem_append_right o mem_cons_self
  have hsub : ∀ b ∈ o ++ [y], b ∈ l ++ x :: (o ++ [y]) := fun b hb =>
    mem_append_right l (mem_cons_of_mem x hb)
  have hx : x ∈ l ++ x :: (o ++ [y]) := mem_append_right l mem_cons_self
  obtain ⟨hrest, hkept⟩ := hf.pop hfirst
  have hrestSeg := hrest.seg
  rw [set_head] at hrestSeg
  have hg' : pool.FreeList sorted (update next x 0) g k m := hg.congr ⟨rfl, rfl⟩ (fun b hb =>
    update_of_ne (fun heq => hapart x hx b hb heq.symm) _ _)
  have hcnt : f.cnt k = l.length + 1 + (o.length + 1) := by
    rw [hf.cnt, length_append, length_cons, length_append, length_singleton]
    omega
  refine ⟨⟨?_, ?_, fun hsorted b hb => ?_⟩, hg'.push hrestSeg hrest.kind
    (nodup_append.mpr ⟨ho, hm, fun a ha b hb => hapart a (hsub a ha) b hb⟩)⟩
  · rw [set_head]
    refine hkept.congr fun b hb => ?_
    have hby : b ≠ y := by
      obtain hb | hb := mem_append.mp hb
      · exact hfront b hb y (mem_cons_of_mem x hy)
      · obtain rfl := mem_singleton.mp hb
        exact fun heq => hxo (heq ▸ hy)
    exact update_of_ne hby _ _
  · rw [set_cnt, hcnt, length_append, length_singleton, Nat.add_sub_cancel]
  · exact hf.kind hsorted b (mem_front hb)

/-! ## Moves between the free lists -/

theorem perm_front : (o ++ (l ++ x :: m)).Perm ((l ++ x :: o) ++ m) := by
  have hperm : ((o ++ (l ++ [x])) ++ m).Perm (((l ++ [x]) ++ o) ++ m) :=
    perm_append_comm.append_right m
  simpa only [append_assoc, singleton_append] using hperm

section

variable (h : pool.Inv sorted items s L)
include h

theorem Inv.nodup_of_eq (hL : L X = m) : m.Nodup := hL ▸ h.partition.nodup X

theorem Inv.mem_blocks (hL : L X = m) (hb : b ∈ m) : b ∈ pool.blocks :=
  h.mem (hL.symm ▸ hb)

theorem Inv.length_le_fuel (hL : L X = m) : m.length ≤ pool.fuel :=
  ShmPool.length_le_fuel (h.nodup_of_eq hL) fun _ hb => h.mem_blocks hL hb

/-- **`allocate_batch` moves the front of the global list to the thread.** -/
theorem Inv.allocateBatch (t : ℕ) (hL : L (.global k) = l ++ x :: o) :
    ∃ s', allocateBatch s t k (l.length + 1) = some s' ∧
      pool.Inv sorted items s' (moved L (.global k) (.cache t k) o (l ++ x :: L (.cache t k))) ∧
      s'.rx = s.rx ∧ Seg s'.next ((s.cache t).head k) (L (.cache t k)) 0 := by
  have hne : ShmPlace.global k ≠ .cache t k := nofun
  have hglobal := hL ▸ h.global k
  have hcache := h.cache t k
  obtain ⟨hrest, hfront⟩ := hglobal.splice hcache (hL ▸ h.partition.nodup_append hne)
  have hx : x ∈ L (.global k) := by simp [hL]
  rw [ShmPool.allocateBatch, nth_of_seg hglobal.seg]
  refine ⟨_, rfl, ?_, rfl, ?_⟩
  · refine h.move hne hrest ?_ ?_ (fun Z hX hY => ?_) (fun b hb _ => ?_) h.tx_nodup h.rx_nodup
    · show pool.FreeList sorted _ ((ShmState.setCache _ t k _ _).cache t) k _
      rw [setCache_self]
      exact hfront
    · rw [hL]
      exact perm_front
    · exact ((same_next s _ Z).trans (same_setGlobal _ _ _ hX)).trans (same_setCache _ _ _ hY)
    · exact update_of_mem hx hb
  · exact hcache.seg.congr fun b hb => update_of_mem hx (h.partition.not_mem hb hne.symm)

omit h in
theorem mempoolId_of_mem (hb : b ∈ pool.blocks) : pool.mempoolId b = 0 := if_pos hb

omit h in
/-- Buffers of the pool all go back in one batch. -/
theorem returnBatches_own {c first hd : ℕ} (s : ShmState) (hx : (first :: m).getLast? = some x)
    (hown : ∀ b ∈ first :: m, b ∈ pool.blocks) :
    pool.returnBatches k m ⟨hd, first, c⟩ s =
      (s.setNext x (s.global.head k)).setGlobal k hd (s.global.cnt k + (c + m.length)) := by
  induction m generalizing first c with
  | nil =>
    cases hx
    have hid : pool.mempoolId first = 0 := mempoolId_of_mem (hown first mem_cons_self)
    exact if_neg fun hne => hne hid
  | cons cur m ih =>
    obtain ⟨hfirst, hrest⟩ := forall_mem_cons.mp hown
    have hid : pool.mempoolId first = pool.mempoolId cur :=
      (mempoolId_of_mem hfirst).trans (mempoolId_of_mem (hrest cur mem_cons_self)).symm
    rw [returnBatches, if_pos hid, ih (getLast?_cons_cons ▸ hx) hrest, length_cons,
      add_assoc c 1, add_comm 1]

omit h in
/-- `return_list_to_pools` for a list of buffers of the pool. -/
theorem returnListToPools_own (s : ShmState) (t : ℕ) (hseg : Seg s.next p (l ++ [x]) 0)
    (hown : ∀ b ∈ l ++ [x], b ∈ pool.blocks) (hfuel : (l ++ [x]).length ≤ pool.fuel) :
    pool.returnListToPools s t k p = some (((s.setNext x (s.global.head k)).setGlobal k p
        (s.global.cnt k + (l.length + 1))).setCache t k ((s.cache t).head k)
        ((s.cache t).cnt k - (l.length + 1))) := by
  have hlen : (l ++ [x]).length = l.length + 1 := length_append
  have hlast : (l ++ [x]).getLast? = some x := getLast?_concat
  have hwalk := walk_of_seg hseg hfuel
  generalize l ++ [x] = m at hseg hown hwalk hlast hlen
  cases m with
  | nil => exact nomatch hlast
  | cons first m =>
    have hcnt : 1 + m.length = l.length + 1 := by rw [← hlen, length_cons, add_comm]
    rw [returnListToPools, hwalk]
    simp only [returnBatches_own s hlast hown, hseg.1, hcnt]
    rw [← hlen]
    rfl

/-- **The end of a failed `fetch_from_global`**: the front of the list goes back
to the global list. -/
theorem Inv.rollback {headBefore : ℕ}
    (hL : L (.cache t k) = l ++ x :: o) (hbefore : Seg s.next headBefore o 0) :
    ∃ s', pool.rollback s t k headBefore (l.length + 1) = some s' ∧
      pool.Inv sorted items s' (moved L (.cache t k) (.global k) o (l ++ x :: L (.global k))) ∧
      s'.rx = s.rx := by
  have hne : ShmPlace.cache t k ≠ .global k := nofun
  have hcache := hL ▸ h.cache t k
  have hx : x ∈ L (.cache t k) := by simp [hL]
  obtain ⟨hrest, hfront⟩ := hcache.splice (h.global k) (hL ▸ h.partition.nodup_append hne)
  obtain ⟨-, hcut⟩ := hcache.pop (h.nodup_of_eq hL)
  have hhead : headBefore = s.next x := by
    obtain ⟨y, -, rfl, -, hback⟩ := seg_append.mp hcache.seg
    exact hbefore.start_unique hback
  have hlen : (l ++ [x]).length ≤ pool.fuel := by
    have hle := h.length_le_fuel hL
    simp only [length_append, length_cons, length_nil] at hle ⊢
    omega
  let s₀ := (s.setNext x 0).setCache t k headBefore ((s.cache t).cnt k)
  have hs₀ : s₀.cache t = (s.cache t).set k headBefore ((s.cache t).cnt k) := setCache_self _ _ _ _
  have hnext : update s₀.next x (s.global.head k) =
      update s.next x (s.global.head k) := update_idem _ _ _
  rw [ShmPool.rollback, nth_of_seg hcache.seg]
  refine ⟨_, returnListToPools_own s₀ t hcut (fun b hb => h.mem_blocks hL (mem_front hb)) hlen,
    ?_, rfl⟩
  refine h.move hne ?_ ?_ ?_ (fun Z hX hY => ?_) (fun b hb _ => ?_) h.tx_nodup h.rx_nodup
  · refine hrest.congr ?_ fun b _ => congrFun hnext b
    show ((ShmState.setCache _ t k _ _).cache t).head k = _ ∧ _
    rw [setCache_self, set_head, set_cnt, hs₀, set_head, set_cnt, set_head, set_cnt]
    exact ⟨hhead, rfl⟩
  · exact hfront.congr ⟨rfl, rfl⟩ fun b _ => congrFun hnext b
  · rw [hL]
    exact perm_front
  · exact (((same_next s _ Z).trans (same_setCache _ _ _ hX)).trans
      ((same_next s₀ _ Z).trans (same_setGlobal _ _ _ hY))).trans (same_setCache _ _ _ hX)
  · exact (congrFun hnext b).trans (update_of_mem hx hb)

/-- **`return_to_global`**: what is behind the first buffers of the thread goes
to the global list. -/
theorem Inv.returnToGlobal {threshold : ℕ} (hpos : threshold ≠ 0)
    (hlt : threshold < (s.cache t).cnt k) :
    ∃ s' L', pool.returnToGlobal s t k threshold = some s' ∧ pool.Inv sorted items s' L' := by
  have hne : ShmPlace.cache t k ≠ .global k := nofun
  have hcache := h.cache t k
  rw [hcache.cnt] at hlt
  obtain ⟨l, x, o, hL, rfl⟩ := exists_split hpos (Nat.le_of_lt hlt)
  have hnil : o ≠ [] := by
    rintro rfl
    rw [hL, length_append] at hlt
    exact Nat.lt_irrefl _ hlt
  obtain ⟨o, y, rfl⟩ := (eq_nil_or_concat' o).resolve_left hnil
  rw [hL] at hcache
  have hmemx : x ∈ L (.cache t k) := by simp [hL]
  have hmemo : ∀ b ∈ o ++ [y], b ∈ L (.cache t k) := fun b hb =>
    hL ▸ mem_append_right l (mem_cons_of_mem x hb)
  have hnodup : (o ++ [y]).Nodup := (nodup_cons.mp (nodup_append.mp (h.nodup_of_eq hL)).2.1).2
  have hbackSeg : Seg (update s.next x 0) (s.next x) (o ++ [y]) 0 := by
    have hseg := (hcache.pop (h.nodup_of_eq hL)).1.seg
    rw [set_head] at hseg
    exact hseg
  have hlink : s.next x ≠ 0 := by
    cases o with
    | nil | cons z o => exact hbackSeg.1 ▸ hbackSeg.2.1
  obtain ⟨hkept, hgone⟩ := hcache.keep (h.global k) (hL ▸ h.partition.nodup_append hne)
  let s₀ := s.setNext x 0
  have hown : ∀ b ∈ o ++ [y], b ∈ pool.blocks := fun b hb => h.mem (hmemo b hb)
  rw [ShmPool.returnToGlobal, nth_of_seg hcache.seg]
  show ∃ s' L', (if s.next x = 0 then _ else _) = some s' ∧ _
  rw [if_neg hlink]
  refine ⟨_, _, returnListToPools_own s₀ t hbackSeg hown (ShmPool.length_le_fuel hnodup hown),
    h.move (l := l ++ [x]) hne ?_ hgone ?_ (fun Z hX hY => ?_) (fun b hb _ => ?_) h.tx_nodup
      h.rx_nodup⟩
  · show pool.FreeList sorted _ ((ShmState.setCache _ t k _ _).cache t) k _
    rw [setCache_self]
    exact hkept
  · simp [hL]
  · exact (((same_next s _ Z).trans (same_next s₀ _ Z)).trans (same_setGlobal _ _ _ hY)).trans
      (same_setCache _ _ _ hX)
  · exact (update_of_mem (hmemo y (by simp)) hb).trans (update_of_mem hmemx hb)

end

/-! ## Moves between a free list and a chain -/

variable {enc : ℕ → ℕ} {w : ℕ} {here : Prop}

theorem chained_nil (hhere : ¬ here) : pool.Chained enc next w here [] :=
  ⟨fun hh => absurd hh hhere, fun hh => absurd hh hhere, ⟨true, nofun⟩, fun _ => rfl⟩

theorem Chained.of_coded (hcoded : Coded enc next w l) (hnil : l ≠ [])
    (hkind : ∀ b ∈ l, pool.kind b = k) (hhere : here) : pool.Chained enc next w here l :=
  ⟨fun _ => hcoded, fun _ => hnil, ⟨k, hkind⟩, fun hh => absurd hhere hh⟩

theorem coded_owner : Coded (pool.addr .owner) next p l ↔ Seg next p l 0 := coded_id

/-- The first buffer of a chain of the owner is the one it is known by. -/
theorem Inv.mem_owner (h : pool.Inv sorted items s L) (hp : p ∈ s.owner) : p ∈ L (.owner p) := by
  exact (coded_owner.mp ((h.owner p).coded hp)).start_mem ((h.owner p).ne_nil hp)

/-- The buffers of a free list are of one kind: its own, or with data where there
are no others. -/
theorem Inv.exists_kind (h : pool.Inv sorted items s L)
    (hX : pool.FreeList sorted next f k (L X)) : ∃ k', ∀ b ∈ L X, pool.kind b = k' := by
  obtain hsorted | hcombine := h.mode
  · exact ⟨k, hX.kind hsorted⟩
  · refine ⟨true, fun b hb => ?_⟩
    obtain ⟨offset, -, hat⟩ := at_of_mem (h.mem hb)
    exact hat.eq_true_of_combine hcombine

/-- **An allocation from the list of a thread**: the front of it becomes a
chain. -/
theorem Inv.qbufAlloc (h : pool.Inv sorted items s L) (hpos : n ≠ 0) (hle : n ≤ (s.cache t).cnt k) :
    ∃ s' L', qbufAlloc s t k n = some s' ∧ pool.Inv sorted items s' L' := by
  have hcache := h.cache t k
  obtain ⟨k', hkind⟩ := h.exists_kind hcache
  rw [hcache.cnt] at hle
  obtain ⟨l, x, o, hL, rfl⟩ := exists_split hpos hle
  rw [hL] at hcache hkind
  have hne : ShmPlace.cache t k ≠ .owner ((s.cache t).head k) := nofun
  obtain ⟨hrest, hfront⟩ := hcache.pop (h.nodup_of_eq hL)
  have hmemx : x ∈ L (.cache t k) := by simp [hL]
  have hsome : l ++ [x] ≠ [] := by simp
  have hhead : (s.cache t).head k ∈ L (.cache t k) := hL ▸ mem_front (hfront.start_mem hsome)
  have hfresh : (s.cache t).head k ∉ s.owner := fun hp =>
    h.partition.not_mem hhead hne (h.mem_owner hp)
  let s₀ := (s.setNext x 0).setCache t k (s.next x) ((s.cache t).cnt k - (l.length + 1))
  rw [ShmPool.qbufAlloc, nth_of_seg hcache.seg]
  refine ⟨{ s₀ with owner := _ }, _, rfl, h.move hne (l := o) ?_ (Chained.of_coded
    (coded_owner.mpr hfront) hsome (fun b hb => hkind b (mem_front hb)) mem_cons_self)
    ?_ (fun Z hX hY => ?_) (fun b hb _ => ?_) h.tx_nodup h.rx_nodup⟩
  · show pool.FreeList sorted _ (s₀.cache t) k o
    rw [setCache_self]
    exact hrest
  · rw [hL, (h.owner _).nil hfresh]
    exact perm_front (m := [])
  · refine ((same_next s _ Z).trans (same_setCache _ _ _ hX)).trans
      (same_chains s₀ (fun p hp => ?_) (fun _ _ => Iff.rfl) (fun _ _ => Iff.rfl)
        fun _ _ => Iff.rfl)
    exact mem_cons_of_ne fun heq => hY (heq ▸ hp)
  · exact update_of_mem hmemx hb

/-- The chain of a place goes in front of a list: the state after it has the
place empty. -/
theorem Inv.release (h : pool.Inv sorted items s L) (hp : p ∈ s.owner) (t : ℕ) :
    ∃ s' L' l x, walk s.next pool.fuel p = l ++ [x] ∧
      s' = { (s.setNext x ((s.cache t).head (pool.kind p))).setCache t (pool.kind p) p
          ((s.cache t).cnt (pool.kind p) + (l.length + 1)) with
        owner := s.owner.filter (fun q => q ≠ p) } ∧ pool.Inv sorted items s' L' := by
  have hne : ShmPlace.owner p ≠ .cache t (pool.kind p) := nofun
  have hchain := h.owner p
  obtain ⟨k, hkind⟩ := hchain.kind
  obtain rfl : pool.kind p = k := hkind p (h.mem_owner hp)
  obtain ⟨l, x, hL⟩ := (eq_nil_or_concat' (L (.owner p))).resolve_left (hchain.ne_nil hp)
  have hseg : Seg s.next p (l ++ [x]) 0 := hL ▸ coded_owner.mp (hchain.coded hp)
  have hmemx : x ∈ L (.owner p) := by simp [hL]
  have hpush := (h.cache t _).push hseg (fun _ => hL ▸ hkind) (hL ▸ h.partition.nodup_append hne)
  let s₀ := (s.setNext x ((s.cache t).head (pool.kind p))).setCache t (pool.kind p) p
    ((s.cache t).cnt (pool.kind p) + (l.length + 1))
  refine ⟨_, moved L (.owner p) (.cache t (pool.kind p)) []
    ((l ++ [x]) ++ L (.cache t (pool.kind p))), l, x,
    walk_of_seg hseg (h.length_le_fuel hL), rfl, ?_⟩
  refine h.move hne (chained_nil not_mem_filter_ne) ?_ ?_ (fun Z hX hY => ?_) (fun b hb _ => ?_)
    h.tx_nodup h.rx_nodup
  · show pool.FreeList sorted _ (s₀.cache t) _ _
    rw [setCache_self]
    exact hpush
  · rw [hL]
    rfl
  · refine ((same_next s _ Z).trans (same_setCache _ _ _ hY)).trans
      (same_chains s₀ (fun q hq => ?_) (fun _ _ => Iff.rfl) (fun _ _ => Iff.rfl)
        fun _ _ => Iff.rfl)
    exact mem_filter_ne fun heq => hX (heq ▸ hq)
  · exact update_of_mem hmemx hb

/-- **`umq_shm_qbuf_free` by the owner.** -/
theorem Inv.umqShmQbufFree (h : pool.Inv sorted items s L) (hp : p ∈ s.owner) (t : ℕ) :
    ∃ s' L', pool.umqShmQbufFree s t p = some s' ∧ pool.Inv sorted items s' L' := by
  have hblock : p ∈ pool.blocks := h.mem (h.mem_owner hp)
  obtain ⟨s₁, L₁, l, x, hwalk, rfl, h₁⟩ := h.release hp t
  have hlen : (l ++ [x]).length = l.length + 1 := length_append
  have hlast : (l ++ [x]).getLast? = some x := getLast?_concat
  rw [ShmPool.umqShmQbufFree]
  simp only [freeKind_of_mem hblock, hwalk, hlast, hlen, Option.bind_some]
  have hmany (hle : shmQbufPoolTlsMax + shmQbufPoolBatchCnt ≤
      (s.cache t).cnt (pool.kind p) + (l.length + 1)) :=
    h₁.returnToGlobal (t := t) (k := pool.kind p) (show shmQbufPoolTlsMax ≠ 0 by decide) (by
      show _ < ((ShmState.setCache _ t _ _ _).cache t).cnt _
      rw [setCache_self, set_cnt]
      exact Nat.lt_of_lt_of_le (Nat.lt_add_of_pos_right (by decide)) hle)
  split_ifs with hk hlimit hlimit
  · exact hmany (Nat.le_of_lt (of_decide_eq_true hlimit))
  · exact ⟨_, L₁, rfl, h₁⟩
  · exact hmany (of_decide_eq_true hlimit)
  · exact ⟨_, L₁, rfl, h₁⟩

end ShmPool

end Umq

import UbsComm.Common.RbTreeRepair

/-!
# Runs of the red-black tree

A caller looks for the place of a new node by comparing keys, links the node
there and lets the tree insert it; nodes with equal keys may be on either side
of each other. In every run of insertions, removals and replacements the tree
has the nodes that are in it, each once, and is a red-black tree, with
pointers up that are the inverse of the pointers down – and no null pointer
is ever followed (`rbStep_spec`, `run_spec`).

A replacement does not look at keys. The nodes are in the order of their keys
as long as each new node has a key that fits where the old one was
(`FitsKey`).
-/

namespace Common

open RedBlack List

variable {P K : Type*}

/-! ## Looking for a place -/

/-- The way of a caller down the tree, in so many rounds, to the place for a
new node: its parent, and the side. -/
def NetRbTree.search (t : NetRbTree P) (goes : P → Side) :
    ℕ → Option P → Option P → Side → Option (Option P × Side)
  | 0, _, _, _ => none
  | _ + 1, none, parent, d => some (parent, d)
  | rounds + 1, some node, _, _ =>
    t.search goes rounds ((t.nodes node).child (goes node)) (some node) (goes node)

/-- The side of a node that another one belongs on by its key; the caller has
its own choice for equal keys. -/
def goesBy [LinearOrder K] (key : P → K) (ties : P → Side) (x y : P) : Side :=
  if key x < key y then .left
  else if key y < key x then .right
  else ties y

/-! ## Runs -/

/-- What happens to a tree. -/
inductive RbAction (P : Type*) where
  | insert (node : P) (ties : P → Side)
  | erase (node : P)
  | replace (victim newNode : P)

/-- A tree, and for the record the nodes that are in it. -/
structure RbState (P : Type*) where
  tree : NetRbTree P
  live : List P

/-- A node is inserted that is not in the tree, and one is removed or replaced
that is. -/
def RbAction.Allowed (st : RbState P) : RbAction P → Prop
  | .insert node _ => node ∉ st.live
  | .erase node => node ∈ st.live
  | .replace victim newNode => victim ∈ st.live ∧ newNode ∉ st.live

variable [LinearOrder K] (key : P → K)

section

variable [DecidableEq P]

instance decidableAllowed (st : RbState P) : (a : RbAction P) → Decidable (a.Allowed st)
  | .insert node _ => inferInstanceAs (Decidable (node ∉ st.live))
  | .erase node => inferInstanceAs (Decidable (node ∈ st.live))
  | .replace victim newNode => inferInstanceAs (Decidable (victim ∈ st.live ∧ newNode ∉ st.live))

/-- A new node has a key that fits where the old one was. -/
def RbAction.FitsKey (st : RbState P) : RbAction P → Prop
  | .replace victim newNode => ∀ y ∈ st.live, y ≠ victim →
    (key y ≤ key victim → key y ≤ key newNode) ∧ (key victim ≤ key y → key newNode ≤ key y)
  | _ => True

instance decidableFitsKey (st : RbState P) : (a : RbAction P) → Decidable (a.FitsKey key st)
  | .insert _ _ => .isTrue trivial
  | .erase _ => .isTrue trivial
  | .replace victim newNode => inferInstanceAs (Decidable (∀ y ∈ st.live, y ≠ victim →
    (key y ≤ key victim → key y ≤ key newNode) ∧ (key victim ≤ key y → key newNode ≤ key y)))

/-- One operation; without a result if a null pointer is followed, or if a
loop goes round more often than there are nodes. -/
def rbStep (st : RbState P) : RbAction P → Option (RbState P)
  | .insert node ties =>
    let rounds := st.live.length + 1
    (st.tree.search (goesBy key ties node) rounds st.tree.ref none .left).bind fun place =>
    ((st.tree.link node place.1 place.2).insert rounds node).map fun tree => ⟨tree, node :: st.live⟩
  | .erase node =>
    (st.tree.erase (st.live.length + 1) node).map fun tree => ⟨tree, st.live.erase node⟩
  | .replace victim newNode =>
    some ⟨st.tree.replace victim newNode, newNode :: st.live.erase victim⟩

/-- A tree without nodes, whatever is in the memory. -/
def RbState.empty (nodes : P → NetRbNode P) : RbState P := ⟨⟨nodes, none⟩, []⟩

/-- Operations on an empty tree. -/
def rbRun (nodes : P → NetRbNode P) (xs : List (RbAction P)) : Option (RbState P) :=
  Machine.run (rbStep key) (.empty nodes) xs

end

/-! ## The place that is found -/

open RedBlack.Tree

/-- In the order of their keys. -/
def SortedBy (xs : List P) : Prop := xs.Pairwise fun x y => key x ≤ key y

/-- A place where a node fits in by its key. -/
def FitsAt (x : P) (ctx : List (Frame P)) : Prop :=
  (∀ y ∈ before ctx, key y ≤ key x) ∧ ∀ y ∈ after ctx, key x ≤ key y

variable {key} {T : RedBlack.Tree P} {t : NetRbTree P} {xs ys : List P} {ctx : List (Frame P)}
  {st : RbState P} {x : P} {s o : RedBlack.Tree P}

/-- Another node in the place of one, or in a place that is empty. -/
theorem SortedBy.fill (h : SortedBy key (xs ++ ys)) (hx : ∀ y ∈ xs, key y ≤ key x)
    (hy : ∀ y ∈ ys, key x ≤ key y) : SortedBy key (xs ++ x :: ys) := by
  obtain ⟨hxs, hys, hle⟩ := pairwise_append.mp h
  refine pairwise_append.mpr ⟨hxs, pairwise_cons.mpr ⟨hy, hys⟩, fun z hz w hw => ?_⟩
  rcases mem_cons.mp hw with rfl | hw
  · exact hx z hz
  · exact hle z hz w hw

open SortedBy

/-- One step down keeps to where the node fits in. -/
theorem FitsAt.cons {ties : P → Side} {d : Side} {x y : P} {c : Color}
    (hgoes : goesBy key ties x y = d)
    (hsorted : SortedBy key (plug ctx (bin d c s y o)).toList) (h : FitsAt key x ctx) :
    FitsAt key x (⟨d, c, y, o⟩ :: ctx) := by
  rw [toList_plug] at hsorted
  have hmid := (pairwise_append.mp (pairwise_append.mp hsorted).2.1).1
  cases d with
  | left =>
    obtain ⟨-, hyo, -⟩ := pairwise_append.mp hmid
    have hxy : key x ≤ key y := by
      by_contra hle
      rw [goesBy, if_neg (fun hlt => hle hlt.le), if_pos (not_le.mp hle)] at hgoes
      cases hgoes
    refine ⟨fun z hz => h.1 z (append_nil (before ctx) ▸ hz), forall_mem_append.mpr ⟨?_, h.2⟩⟩
    exact forall_mem_cons.mpr ⟨hxy, fun z hz => hxy.trans ((pairwise_cons.mp hyo).1 z hz)⟩
  | right =>
    obtain ⟨-, -, hoy⟩ := pairwise_append.mp hmid
    have hyx : key y ≤ key x := by
      by_contra hle
      rw [goesBy, if_pos (not_le.mp hle)] at hgoes
      cases hgoes
    refine ⟨forall_mem_append.mpr ⟨h.1, forall_mem_append.mpr ⟨fun z hz => ?_, ?_⟩⟩, h.2⟩
    · exact (hoy z hz y mem_cons_self).trans hyx
    · exact forall_mem_singleton.mpr hyx

/-- **The search ends at an empty place, and where the node fits in** if the
tree is in order. -/
theorem search_spec (key : P → K) {rounds : ℕ} (x : P)
    (ties : P → Side) (h : Rep t (plug ctx T)) (hrounds : T.toList.length < rounds) :
    ∃ ctx', plug ctx' .nil = plug ctx T
      ∧ t.search (goesBy key ties x) rounds T.root (parentOf ctx) (sideOf ctx)
        = some (parentOf ctx', sideOf ctx')
      ∧ (SortedBy key (plug ctx T).toList → FitsAt key x ctx → FitsAt key x ctx') := by
  induction rounds generalizing ctx T with
  | zero => cases hrounds
  | succ rounds ih =>
    cases T with
    | nil => exact ⟨ctx, rfl, rfl, fun _ hfits => hfits⟩
    | node c l y r =>
      obtain ⟨d, hgoes⟩ : ∃ d, goesBy key ties x y = d := ⟨_, rfl⟩
      obtain ⟨s, o, heq⟩ := exists_bin_node d c l y r
      rw [heq] at h hrounds ⊢
      have hs : s.toList.length < rounds := by
        rw [(toList_bin_perm d c s y o).length_eq, length_cons, length_append] at hrounds
        omega
      obtain ⟨ctx', heq', hfound, hfits'⟩ :=
        ih (show Rep t (plug (⟨d, c, y, o⟩ :: ctx) s) from h) hs
      refine ⟨ctx', heq', ?_, fun hsorted hfits => hfits' hsorted (hfits.cons hgoes hsorted)⟩
      rw [root_bin, NetRbTree.search, hgoes, h.node, binNode_child]
      exact hfound

/-! ## Pointers up and down -/

/-- **The pointers to parents are the inverse of the pointers to children**,
among the nodes of the tree. -/
structure ParentsInverse (t : NetRbTree P) (nodes : List P) : Prop where
  root : ∀ r, t.ref = some r → r ∈ nodes ∧ (t.nodes r).parent = none
  child : ∀ x ∈ nodes, ∀ d y, (t.nodes x).child d = some y → y ∈ nodes ∧ (t.nodes y).parent = some x
  isRoot : ∀ y ∈ nodes, (t.nodes y).parent = none → t.ref = some y
  isChild : ∀ y ∈ nodes, ∀ x, (t.nodes y).parent = some x →
    x ∈ nodes ∧ ∃ d, (t.nodes x).child d = some y

theorem Rep.parent_of_child {d : Side} {c : Color} {x y : P} (h : Rep t (plug ctx (bin d c s x o)))
    (hy : (t.nodes x).child d = some y) :
    y ∈ (plug ctx (bin d c s x o)).toList ∧ (t.nodes y).parent = some x := by
  rw [h.node, binNode_child] at hy
  have hs : s ≠ .nil := by
    rintro rfl
    cases hy
  obtain ⟨c', a, z, b, rfl⟩ := exists_bin .left hs
  have hzy : z = y := Option.some.inj hy
  have hchild : Rep t (plug (⟨d, c, x, o⟩ :: ctx) (bin .left c' a z b)) := h
  refine ⟨?_, ?_⟩
  · exact hzy ▸ (toList_plug_perm (⟨d, c, x, o⟩ :: ctx) (bin .left c' a z b)).mem_iff.mpr
      (mem_append_left _ (mem_toList_bin.mpr (.inl rfl)))
  · rw [← hzy, hchild.node]
    rfl

theorem Rep.parentsInverse (h : Rep t T) : ParentsInverse t T.toList where
  root r hr := by
    have hroot : T.root = some r := h.ref.symm.trans hr
    cases T with
    | nil => cases hroot
    | node c l x r' =>
      have hx : x = r := Option.some.inj hroot
      have h : Rep t (plug [] (bin .left c l x r')) := h
      refine ⟨mem_toList_of_root hroot, ?_⟩
      rw [← hx, h.node]
      rfl
  child x hx d y hy := by
    obtain ⟨ctx, c, l, r, rfl⟩ := exists_plug hx
    obtain ⟨s, o, heq⟩ := exists_bin_node d c l x r
    rw [heq] at h ⊢
    exact h.parent_of_child hy
  isRoot y hy hparent := by
    obtain ⟨ctx, c, l, r, rfl⟩ := exists_plug hy
    cases ctx with
    | nil => exact h.ref
    | cons f ctx =>
      rw [Rep.node (d := .left) h] at hparent
      cases hparent
  isChild y hy x hx := by
    obtain ⟨ctx, c, l, r, rfl⟩ := exists_plug hy
    rw [Rep.node (d := .left) h] at hx
    cases ctx with
    | nil => cases hx
    | cons f ctx =>
      obtain ⟨d, c', z, o⟩ := f
      have hz : z = x := Option.some.inj hx
      refine ⟨?_, d, ?_⟩
      · exact hz ▸ (toList_plug_perm ctx (bin d c' (.node c l y r) z o)).mem_iff.mpr
          (mem_append_left _ (mem_toList_bin.mpr (.inl rfl)))
      · rw [← hz, h.node, binNode_child]
        rfl

/-! ## What holds in a run -/

theorem SortedBy.remove (h : SortedBy key (xs ++ x :: ys)) : SortedBy key (xs ++ ys) :=
  h.sublist ((sublist_cons_self x ys).append_left xs)

/-- The tree that the pointers are, with the nodes that are in it. -/
structure RbInv (st : RbState P) (T : RedBlack.Tree P) : Prop where
  rep : Rep st.tree T
  redBlack : IsRedBlack T
  perm : T.toList.Perm st.live

namespace RbInv

variable {st : RbState P} {T : RedBlack.Tree P}

theorem empty (nodes : P → NetRbNode P) : RbInv (.empty nodes) (.nil : RedBlack.Tree P) :=
  ⟨⟨rfl, trivial, nodup_nil⟩, ⟨rfl, trivial, 0, rfl⟩, List.Perm.refl _⟩

theorem length_lt (h : RbInv st T) : T.toList.length < st.live.length + 1 :=
  h.perm.length_eq ▸ Nat.lt_succ_self _

end RbInv

/-! ## The whole of it -/

/-- **A red-black tree of the nodes that are in it.** The pointers are those
of a tree, which has exactly these nodes, is red-black, and has the parents
that the children say. -/
structure IsRbTree (st : RbState P) (T : RedBlack.Tree P) : Prop where
  rep : Rep st.tree T
  perm : T.toList.Perm st.live
  rootBlack : ∀ r, st.tree.ref = some r → (st.tree.nodes r).color = .black
  noRedRed : T.NoRedRed
  blackHeight : ∃ n, T.Bal n
  parents : ParentsInverse st.tree st.live

theorem ParentsInverse.of_perm (h : ParentsInverse t xs)
    (hperm : xs.Perm ys) : ParentsInverse t ys where
  root r hr := ⟨hperm.mem_iff.mp (h.root r hr).1, (h.root r hr).2⟩
  child x hx d y hy :=
    have hchild := h.child x (hperm.mem_iff.mpr hx) d y hy
    ⟨hperm.mem_iff.mp hchild.1, hchild.2⟩
  isRoot y hy := h.isRoot y (hperm.mem_iff.mpr hy)
  isChild y hy x hx :=
    have hchild := h.isChild y (hperm.mem_iff.mpr hy) x hx
    ⟨hperm.mem_iff.mp hchild.1, hchild.2⟩

theorem RbInv.isRbTree (h : RbInv st T) : IsRbTree st T where
  __ := h
  rootBlack r hr := by
    have hroot : T.root = some r := h.rep.ref.symm.trans hr
    obtain ⟨hrep, hrb, -⟩ := h
    cases T with
    | nil => cases hroot
    | node c l x r' =>
      have hx : x = r := Option.some.inj hroot
      have hrep : Rep st.tree (plug [] (bin .left c l x r')) := hrep
      rw [← hx, hrep.node]
      cases c with
      | red => exact absurd hrb.root.symm Bool.false_ne_true
      | black => rfl
  noRedRed := h.redBlack.noRedRed
  blackHeight := h.redBlack.bal
  parents := h.rep.parentsInverse.of_perm h.perm

variable [DecidableEq P]

theorem perm_erase_middle {xs ys zs : List P} (h : (xs ++ x :: ys).Perm zs) :
    (xs ++ ys).Perm (zs.erase x) :=
  (cons_perm_iff_perm_erase.mp (perm_middle.symm.trans h)).2

namespace RbInv

theorem insert (key : P → K) (h : RbInv st T) (hx : x ∉ st.live) (ties : P → Side) :
    ∃ st' T', rbStep key st (.insert x ties) = some st' ∧ RbInv st' T'
      ∧ (SortedBy key T.toList → RbAction.FitsKey key st (.insert x ties)
        → SortedBy key T'.toList) := by
  obtain ⟨ctx, rfl, hfound, hfits⟩ :=
    search_spec key x ties (show Rep st.tree (plug [] T) from h.rep) h.length_lt
  have hlist : (plug ctx .nil).toList = before ctx ++ after ctx := toList_plug ctx .nil
  have hperm : (before ctx ++ after ctx).Perm st.live := hlist ▸ h.perm
  have hxctx : x ∉ ctxKeys ctx := fun hmem => hx (hperm.mem_iff.mp hmem)
  have hrounds : ctx.length < st.live.length + 1 := by
    have hlen := hperm.length_eq
    have hctx := length_le_ctxKeys ctx
    rw [ctxKeys] at hctx
    omega
  obtain ⟨t', T', heq, hrep, hrb, hlist'⟩ := insert_spec h.rep h.redBlack hxctx hrounds
  refine ⟨⟨t', x :: st.live⟩, T', ?_, ⟨hrep, hrb, ?_⟩, fun hsorted _ => ?_⟩
  · have hfound : st.tree.search (goesBy key ties x) (st.live.length + 1) st.tree.ref none .left
        = some (parentOf ctx, sideOf ctx) := h.rep.ref ▸ hfound
    rw [rbStep, hfound, Option.bind_some, heq, Option.map_some]
  · rw [hlist']
    exact perm_middle.trans (hperm.cons x)
  · obtain ⟨hbefore, hafter⟩ := hfits hsorted ⟨forall_mem_nil _, forall_mem_nil _⟩
    rw [hlist']
    exact fill (hlist ▸ hsorted) hbefore hafter

theorem erase (key : P → K) (h : RbInv st T) (hx : x ∈ st.live) :
    ∃ st' T', rbStep key st (.erase x) = some st' ∧ RbInv st' T'
      ∧ (SortedBy key T.toList → RbAction.FitsKey key st (.erase x) → SortedBy key T'.toList) := by
  obtain ⟨ctx, c, l, r, rfl⟩ := exists_plug (h.perm.mem_iff.mpr hx)
  have hlist := toList_plug_node ctx c l x r
  obtain ⟨t', T', heq, hrep, hrb, hlist'⟩ := erase_spec h.rep h.redBlack h.length_lt
  have hlist' : T'.toList = (before ctx ++ l.toList) ++ (r.toList ++ after ctx) := by
    rw [hlist']
    simp only [append_assoc]
  refine ⟨⟨t', st.live.erase x⟩, T', ?_, ⟨hrep, hrb, ?_⟩, fun hsorted _ => ?_⟩
  · rw [rbStep, heq, Option.map_some]
  · rw [hlist']
    exact perm_erase_middle (hlist ▸ h.perm)
  · rw [hlist']
    exact remove (hlist ▸ hsorted)

theorem replace (key : P → K) (h : RbInv st T) {y : P} (hx : x ∈ st.live) (hy : y ∉ st.live) :
    ∃ st' T', rbStep key st (.replace x y) = some st' ∧ RbInv st' T'
      ∧ (SortedBy key T.toList → RbAction.FitsKey key st (.replace x y)
        → SortedBy key T'.toList) := by
  obtain ⟨ctx, c, l, r, rfl⟩ := exists_plug (h.perm.mem_iff.mpr hx)
  have hlist := toList_plug_node ctx c l x r
  have hperm := hlist ▸ h.perm
  have hnodup := hlist ▸ h.rep.nodup
  have hyT : y ∉ (plug ctx (.node c l x r)).toList := fun hmem => hy (h.perm.mem_iff.mp hmem)
  refine ⟨⟨_, y :: st.live.erase x⟩, plug ctx (.node c l y r), rfl,
    ⟨h.rep.replace hyT, h.redBlack.of_key y, ?_⟩, fun hsorted hfits => ?_⟩
  · rw [toList_plug_node]
    exact perm_middle.trans ((perm_erase_middle hperm).cons y)
  · rw [toList_plug_node]
    have hsorted := hlist ▸ hsorted
    obtain ⟨-, hright, hleft⟩ := pairwise_append.mp hsorted
    have hdiff := (nodup_cons.mp (nodup_middle.mp hnodup)).1
    refine fill (remove hsorted) (fun z hz => ?_) fun z hz => ?_
    · have hzx : z ≠ x := fun hzx => hdiff (mem_append_left _ (hzx ▸ hz))
      exact (hfits z (hperm.mem_iff.mp (mem_append_left _ hz)) hzx).1 (hleft z hz x mem_cons_self)
    · have hzx : z ≠ x := fun hzx => hdiff (mem_append_right _ (hzx ▸ hz))
      exact (hfits z (hperm.mem_iff.mp (mem_append_right _ (mem_cons_of_mem x hz))) hzx).2
        ((pairwise_cons.mp hright).1 z hz)

end RbInv

/-- **One operation.** -/
theorem rbStep_spec (key : P → K) {a : RbAction P} (h : RbInv st T) (ha : a.Allowed st) :
    ∃ st' T', rbStep key st a = some st' ∧ RbInv st' T'
      ∧ (SortedBy key T.toList → a.FitsKey key st → SortedBy key T'.toList) := by
  cases a with
  | insert node ties => exact h.insert key ha ties
  | erase node => exact h.erase key ha
  | replace victim newNode => exact h.replace key ha.1 ha.2

theorem run_spec (key : P → K) {xs : List (RbAction P)} (h : RbInv st T)
    (hxs : Machine.Along (rbStep key) (fun st a => a.Allowed st) st xs) :
    ∃ st' T', Machine.run (rbStep key) st xs = some st' ∧ RbInv st' T'
      ∧ (SortedBy key T.toList → Machine.Along (rbStep key) (fun st a => a.FitsKey key st) st xs
        → SortedBy key T'.toList) := by
  induction xs generalizing st T with
  | nil => exact ⟨st, T, rfl, h, fun hs _ => hs⟩
  | cons a xs ih =>
    obtain ⟨u, U, hstep, hinv, hsorted⟩ := rbStep_spec key h hxs.1
    obtain ⟨st', T', hrun, hinv', hsorted'⟩ := ih hinv (hxs.2 u hstep)
    exact ⟨st', T', Machine.run_cons_eq_some.mpr ⟨u, hstep, hrun⟩, hinv',
      fun hs hfits => hsorted' (hsorted hs hfits.1) (hfits.2 u hstep)⟩

/-- **In every run of insertions, removals and replacements the tree is a
red-black tree of exactly the nodes that are in it, in the order of their keys
if each replacement is by a node whose key fits.** -/
theorem rbRun_isRbTree (key : P → K) (nodes : P → NetRbNode P) (xs : List (RbAction P))
    (hxs : Machine.Along (rbStep key) (fun st a => a.Allowed st) (.empty nodes) xs) :
    ∃ st T, rbRun key nodes xs = some st ∧ IsRbTree st T
      ∧ (Machine.Along (rbStep key) (fun st a => a.FitsKey key st) (.empty nodes) xs
        → SortedBy key T.toList) := by
  obtain ⟨st, T, hrun, hinv, hsorted⟩ := run_spec key (.empty nodes) hxs
  exact ⟨st, T, hrun, hinv.isRbTree, hsorted List.Pairwise.nil⟩

/-- What is in the memory before the first node. -/
def blank : ℕ → NetRbNode ℕ := fun _ => ⟨none, .red, none, none⟩

/-- Three nodes, two of them with the same key; one is replaced by another with
its key and one removed. -/
theorem rbRun_isRbTree_ties :
    ∃ st T, rbRun (· / 2) blank [.insert 2 fun _ => .left, .insert 4 fun _ => .left,
        .insert 5 fun _ => .left, .replace 2 3, .erase 4] = some st
      ∧ IsRbTree st T ∧ SortedBy (· / 2) T.toList := by
  obtain ⟨st, T, hrun, htree, hsorted⟩ := rbRun_isRbTree (· / 2) blank
    [.insert 2 fun _ => .left, .insert 4 fun _ => .left, .insert 5 fun _ => .left,
      .replace 2 3, .erase 4] (by decide)
  exact ⟨st, T, hrun, htree, hsorted (by decide)⟩

/-- **A replacement by a node with another key leaves the nodes out of
order.** -/
theorem rbRun_replace_unordered :
    Machine.Along (rbStep id) (fun st a => a.Allowed st) (.empty blank)
        [.insert 1 fun _ => .left, .insert 2 fun _ => .left, .replace 1 3]
      ∧ ∃ st T, rbRun id blank [.insert 1 fun _ => .left, .insert 2 fun _ => .left, .replace 1 3]
          = some st
        ∧ Rep st.tree T ∧ T.toList.Perm st.live ∧ ¬SortedBy id T.toList := by
  refine ⟨by decide, _, .node .black .nil 3 (.node .red .nil 2 .nil), rfl,
    ⟨rfl, ?_, by decide⟩, ?_, ?_⟩
  · exact ⟨rfl, trivial, rfl, trivial, trivial⟩
  · exact List.Perm.refl _
  · exact fun hsorted => absurd ((pairwise_cons.mp hsorted).1 2 (by decide)) (by decide)

end Common

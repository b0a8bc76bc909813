import UbsComm.Common.RbTreeRuns

/-!
# The neighbours of a node

`Next` and `Prev` go from a node to the one after and to the one before it in the
order of the keys. `Next` goes down to the first node on the right, or up to the
first node that has the way it came on its left (`next_eq`). `Prev` only goes down:
a node with nothing on its left is its own answer, so that `Prev` is right just for
the nodes that have something there (`neighbours_of_rbRun`).
-/

namespace Common

open RedBlack RedBlack.Tree List Machine

variable {P K : Type*}

/-! ## What is asked for -/

section

variable [LinearOrder K] (key : P → K)

/-- The node with the smallest key that is greater, if there is one. -/
def NextOf (nodes : List P) (x : P) : Option P → Prop
  | none => ∀ y ∈ nodes, key y ≤ key x
  | some z => z ∈ nodes ∧ key x < key z ∧ ∀ y ∈ nodes, key x < key y → key z ≤ key y

/-- The node with the largest key that is smaller, if there is one. -/
def PrevOf (nodes : List P) (x : P) : Option P → Prop
  | none => ∀ y ∈ nodes, key x ≤ key y
  | some z => z ∈ nodes ∧ key z < key x ∧ ∀ y ∈ nodes, key y < key x → key y ≤ key z

/-- Insertions and removals, and no two nodes in the tree with the same key. -/
def RbAction.NewKey (st : RbState P) : RbAction P → Prop
  | .insert x _ => ∀ y ∈ st.live, key y ≠ key x
  | .erase _ => True
  | .replace _ _ => False

instance decidableNewKey (st : RbState P) : (a : RbAction P) → Decidable (a.NewKey key st)
  | .insert x _ => inferInstanceAs (Decidable (∀ y ∈ st.live, key y ≠ key x))
  | .erase _ => .isTrue trivial
  | .replace _ _ => .isFalse id

variable {key} {nodes xs ys : List P} {x : P}

section

variable (h : (xs ++ x :: ys).Pairwise fun x y => key x < key y)
  (hmem : ∀ y, y ∈ nodes ↔ y ∈ xs ++ x :: ys)
include h hmem

theorem nextOf_head? : NextOf key nodes x ys.head? := by
  obtain ⟨-, hys, hxs⟩ := pairwise_append.mp h
  have hle : ∀ y ∈ xs, key y < key x := fun y hy => hxs y hy x mem_cons_self
  cases ys with
  | nil =>
    simp only [NextOf, hmem, head?_nil]
    exact forall_mem_append.mpr ⟨fun y hy => (hle y hy).le, forall_mem_singleton.mpr le_rfl⟩
  | cons z ys =>
    obtain ⟨hx, hz⟩ := pairwise_cons.mp hys
    simp only [NextOf, hmem, head?_cons]
    refine ⟨mem_append_right _ (mem_cons_of_mem x mem_cons_self), hx z mem_cons_self,
      forall_mem_append.mpr ⟨fun y hy hlt => absurd hlt (hle y hy).asymm, ?_⟩⟩
    refine forall_mem_cons.mpr ⟨fun hlt => absurd hlt (lt_irrefl _), ?_⟩
    exact forall_mem_cons.mpr ⟨fun _ => le_rfl, fun y hy _ => ((pairwise_cons.mp hz).1 y hy).le⟩

theorem prevOf_getLast? : PrevOf key nodes x xs.getLast? := by
  have hrev := pairwise_reverse.mpr h
  rw [reverse_append, reverse_cons, append_assoc, singleton_append] at hrev
  have hnext : NextOf (fun y => OrderDual.toDual (key y)) nodes x xs.reverse.head? := by
    refine nextOf_head? hrev fun y => (hmem y).trans ?_
    simp only [mem_append, mem_cons, mem_reverse]
    tauto
  rw [head?_reverse] at hnext
  cases hlast : xs.getLast? <;> exact hlast ▸ hnext

end

end

/-! ## What is found -/

variable {t : NetRbTree P} {ctx : List (Frame P)} {T : RedBlack.Tree P} {c : Color}
  {l r : RedBlack.Tree P} {x root : P} {parent : Option P} {rounds : ℕ}

/-- The keys from a side on. -/
def keysFrom (d : Side) (T : RedBlack.Tree P) : List P :=
  match d with
  | .left => T.toList
  | .right => T.toList.reverse

theorem keysFrom_bin (d : Side) (c : Color) (s o : RedBlack.Tree P) (x : P) :
    keysFrom d (bin d c s x o) = keysFrom d s ++ x :: keysFrom d o := by
  cases d <;> simp [keysFrom, bin, toList]

/-- The way down ends at the first key from that side. -/
theorem Holds.farthest_eq_head? (d : Side) (h : Holds t.nodes parent T) (hroot : T.root = some root)
    (hrounds : T.toList.length ≤ rounds) : t.farthest d rounds root = (keysFrom d T).head? := by
  induction rounds generalizing parent root T with
  | zero =>
    have hmem := mem_toList_of_root hroot
    rw [length_eq_zero_iff.mp (Nat.le_zero.mp hrounds)] at hmem
    cases hmem
  | succ rounds ih =>
    have hne : T ≠ .nil := by
      rintro rfl
      cases hroot
    obtain ⟨c, s, x, o, rfl⟩ := exists_bin d hne
    obtain ⟨hx, hs, -⟩ := holds_bin.mp h
    rw [root_bin, Option.some.injEq] at hroot
    rw [(toList_bin_perm ..).length_eq, length_cons, length_append] at hrounds
    rw [← hroot, NetRbTree.farthest, hx, binNode_child, keysFrom_bin]
    cases s with
    | nil => cases d <;> rfl
    | node c' a y b =>
      have hfirst : (keysFrom d (.node c' a y b)).head?.isSome := by
        cases d <;> simp [keysFrom, toList]
      rw [head?_append, Option.or_of_isSome hfirst]
      exact ih hs rfl (by omega)

theorem parent_ne_self (h : Rep t (plug ctx (bin .left c l x r))) :
    (t.nodes x).parent ≠ some x := by
  rw [h.node]
  have hx := (apart_iff.mp h.nodup).nodeCtx
  cases ctx with
  | nil => nofun
  | cons f ctx => exact fun heq => hx (mem_ctxKeys_cons.mpr (.inl (Option.some.inj heq).symm))

variable [DecidableEq P]

/-- The loop of `Next` ends at the first key after the place. -/
theorem nextAbove_eq (h : Rep t (plug ctx (bin .left c l x r))) (hrounds : ctx.length < rounds) :
    t.nextAbove rounds x = some (after ctx).head? := by
  obtain ⟨rounds, rfl⟩ := Nat.exists_eq_add_of_lt hrounds
  clear hrounds
  induction ctx generalizing x c l r with
  | nil =>
    rw [NetRbTree.nextAbove, h.node]
    rfl
  | cons f ctx ih =>
    obtain ⟨d, c', y, o⟩ := f
    rw [NetRbTree.nextAbove, h.node]
    show (if (t.nodes y).child .right = some x then _ else _) = _
    have hy : t.nodes y = binNode d (parentOf ctx) c' (some x) o.root := by
      rw [Rep.node (d := d) (s := bin .left c l x r) h, root_bin]
    rw [hy]
    cases d with
    | left =>
      have hne : o.root ≠ some x := fun ho =>
        (apart_iff (d := .left) (s := bin .left c l x r)).mp h.nodup |>.disjoint x
          (mem_toList_bin.mpr (.inl rfl)) (mem_toList_of_root ho)
      exact if_neg hne
    | right =>
      rw [if_pos binNode_child, length_cons, Nat.add_right_comm]
      exact ih (c := c') (l := o) (r := bin .left c l x r) h

section

variable (h : Rep t (plug ctx (bin .left c l x r)))
  (hrounds : (plug ctx (bin .left c l x r)).toList.length ≤ rounds)
include h hrounds

/-- **`Next` goes to the first key after a node.** -/
theorem next_eq : t.next rounds x = some (r.toList ++ after ctx).head? := by
  rw [NetRbTree.next, if_neg (parent_ne_self h), h.node]
  obtain ⟨-, -, -, hr, -⟩ := rep_bin_iff.mp h
  rw [length_toList_plug, (toList_bin_perm ..).length_eq, length_cons, length_append] at hrounds
  cases r with
  | nil =>
    have hctx := length_le_ctxKeys ctx
    exact nextAbove_eq h (by omega)
  | node c' a y b =>
    show (t.farthest .left rounds y).map some = _
    rw [hr.farthest_eq_head? .left rfl (by omega)]
    simp only [keysFrom, toList, append_assoc, cons_append, head?_append, head?_cons]
    cases a.toList.head? <;> rfl

/-- **`Prev` goes to the last key on the left of a node**, and nowhere if there is
none. -/
theorem prev_eq : t.prev rounds x =
      some (if (t.nodes x).left = none then some x else (before ctx ++ l.toList).getLast?) := by
  rw [NetRbTree.prev, if_neg (parent_ne_self h), h.node]
  obtain ⟨-, -, hl, -⟩ := rep_bin_iff.mp h
  rw [length_toList_plug, (toList_bin_perm ..).length_eq, length_cons, length_append] at hrounds
  cases l with
  | nil => rfl
  | node c' a y b =>
    show (t.farthest .right rounds y).map some = _
    rw [hl.farthest_eq_head? .right rfl (by omega), keysFrom, head?_reverse]
    have hlast : (toList (.node c' a y b)).getLast?.isSome := by simp [toList]
    rw [getLast?_append, Option.or_of_isSome hlast]
    obtain ⟨z, hz⟩ := Option.isSome_iff_exists.mp hlast
    rw [hz]
    rfl

end

/-! ## Every tree -/

variable [LinearOrder K]

theorem nodup_keys_step {key : P → K} {st st' : RbState P} {a : RbAction P}
    (h : (st.live.map key).Nodup) (ha : a.NewKey key st) (hstep : rbStep key st a = some st') :
    (st'.live.map key).Nodup := by
  cases a with
  | insert y ties =>
    obtain ⟨place, -, hplace⟩ := Option.bind_eq_some_iff.mp hstep
    obtain ⟨tree, -, rfl⟩ := Option.map_eq_some_iff.mp hplace
    refine nodup_cons.mpr ⟨fun hmem => ?_, h⟩
    obtain ⟨z, hz, heq⟩ := mem_map.mp hmem
    exact ha z hz heq
  | erase y =>
    obtain ⟨tree, -, rfl⟩ := Option.map_eq_some_iff.mp hstep
    exact h.sublist (erase_sublist.map key)
  | replace y z => cases ha

/-- **`Next` is right for every node of every tree, and `Prev` for those that have
something on their left.** -/
theorem neighbours_of_rbRun (key : P → K) (nodes : P → NetRbNode P) (xs : List (RbAction P))
    (hxs : Along (rbStep key) (fun st a => a.Allowed st ∧ a.NewKey key st) (.empty nodes) xs) :
    ∃ st, rbRun key nodes xs = some st ∧ ∀ x ∈ st.live, ∀ rounds, st.live.length ≤ rounds →
      (∃ z, st.tree.next rounds x = some z ∧ NextOf key st.live x z) ∧
      ((∃ z, st.tree.prev rounds x = some z ∧ PrevOf key st.live x z) ↔
        (st.tree.nodes x).left ≠ none) := by
  obtain ⟨st, T, hrun, hinv, hsorted⟩ := run_spec key (.empty nodes) (hxs.imp fun st a ha => ha.1)
  have hkeys : (st.live.map key).Nodup :=
    run_invariant_along (P := fun st => (st.live.map key).Nodup)
      (fun _ _ _ h ha hstep => nodup_keys_step h ha.2 hstep) nodup_nil hxs hrun
  have hfits : Along (rbStep key) (fun st a => a.FitsKey key st) (.empty nodes) xs := by
    refine hxs.imp fun st a ha => ?_
    cases a with
    | insert _ _ | erase _ => trivial
    | replace _ _ => exact absurd ha.2 id
  refine ⟨st, hrun, fun x hx rounds hrounds => ?_⟩
  obtain ⟨ctx, c, l, r, rfl⟩ := exists_plug (hinv.perm.mem_iff.mpr hx)
  have hkeys := pairwise_map.mp ((hinv.perm.map key).nodup_iff.mpr hkeys)
  have hlt := ((hsorted Pairwise.nil hfits).and hkeys).imp fun hle => lt_of_le_of_ne hle.1 hle.2
  rw [toList_plug_node] at hlt
  have hlen := hinv.perm.length_eq ▸ hrounds
  have hmem : ∀ y, y ∈ st.live ↔ y ∈ (before ctx ++ l.toList) ++ x :: (r.toList ++ after ctx) :=
    fun y => by rw [← toList_plug_node, hinv.perm.mem_iff]
  refine ⟨⟨_, next_eq hinv.rep hlen, nextOf_head? hlt hmem⟩, ?_⟩
  rw [prev_eq hinv.rep hlen]
  split
  case isTrue hleft =>
    refine iff_of_false ?_ (not_not_intro hleft)
    rintro ⟨z, hz, hprev⟩
    cases hz
    exact lt_irrefl _ hprev.2.1
  case isFalse hleft => exact iff_of_true ⟨_, rfl, prevOf_getLast? hlt hmem⟩ hleft

/-- Three nodes: the root has something on its left. -/
theorem neighbours_of_rbRun_root :
    ∃ st, rbRun id blank [.insert 2 fun _ => .left, .insert 1 fun _ => .left,
        .insert 3 fun _ => .left] = some st ∧
      ∃ z, st.tree.prev 3 2 = some z ∧ PrevOf id st.live 2 z := by
  obtain ⟨st, hrun, h⟩ := neighbours_of_rbRun id blank
    [.insert 2 fun _ => .left, .insert 1 fun _ => .left, .insert 3 fun _ => .left] (by decide)
  cases hrun
  exact ⟨_, rfl, (h 2 (by decide) 3 (by decide)).2.mpr (by decide)⟩

/-- **`Prev` of a leaf is the leaf.** -/
theorem exists_prev_self : ∃ st, rbRun id blank [.insert 2 fun _ => .left, .insert 1 fun _ => .left,
        .insert 3 fun _ => .left] = some st ∧
      st.tree.prev 3 3 = some (some 3) ∧ ¬PrevOf id st.live 3 (some 3) :=
  ⟨_, rfl, by decide, fun h => lt_irrefl _ h.2.1⟩

end Common

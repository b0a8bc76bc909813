import UbsComm.Common.RbTree

/-!
# Trees in memory

The nodes of a tree are in memory as it says if each has the parent, the
colour and the children that it has in the tree (`Rep`), so a parent pointer
is there the inverse of a child pointer. A place in the tree splits that into
the frames around the place and the subtree at it, and an operation that
changes pointers at the place is said by what becomes of the subtree: a
change of colour (`Rep.setColor`), a rotation (`Rep.rotate`), a new leaf
(`Rep.link`), a subtree taken out (`Rep.eraseWithOneChild`), another node
(`Rep.replace`).
-/

namespace Common

open RedBlack RedBlack.Tree List NetRbTree

variable {P : Type*} {s : RedBlack.Tree P}

/-! ## Nodes on either side -/

/-- The words of a node with children on a side and on the other one. -/
def binNode (d : Side) (parent : Option P) (c : Color) (s o : Option P) : NetRbNode P :=
  match d with
  | .left => ⟨parent, c, s, o⟩
  | .right => ⟨parent, c, o, s⟩

section BinNode

variable {d : Side} {parent : Option P} {c : Color} {s o : Option P}

@[simp] theorem binNode_parent : (binNode d parent c s o).parent = parent := by cases d <;> rfl

@[simp] theorem binNode_color : (binNode d parent c s o).color = c := by cases d <;> rfl

@[simp] theorem binNode_child : (binNode d parent c s o).child d = s := by cases d <;> rfl

@[simp] theorem binNode_child_other : (binNode d parent c s o).child d.other = o := by
  cases d <;> rfl

@[simp] theorem binNode_setChild (v : Option P) :
    (binNode d parent c s o).setChild d v = binNode d parent c v o := by cases d <;> rfl

@[simp] theorem binNode_setChild_other (v : Option P) :
    (binNode d parent c s o).setChild d.other v = binNode d parent c s v := by cases d <;> rfl

@[simp] theorem binNode_with_parent (p : Option P) :
    { binNode d parent c s o with parent := p } = binNode d p c s o := by cases d <;> rfl

@[simp] theorem binNode_with_color (c' : Color) :
    { binNode d parent c s o with color := c' } = binNode d parent c' s o := by cases d <;> rfl

end BinNode

/-! ## Setters -/

namespace NetRbTree

variable [DecidableEq P] (t : NetRbTree P) {x z : P}

@[simp] theorem nodes_setNode_self (n : NetRbNode P) : (t.setNode x n).nodes x = n :=
  Function.update_self ..

theorem nodes_setNode_of_ne (h : z ≠ x) (n : NetRbNode P) : (t.setNode x n).nodes z = t.nodes z :=
  Function.update_of_ne h ..

@[simp] theorem nodes_setParent_self (p : Option P) :
    (t.setParent x p).nodes x = { t.nodes x with parent := p } := nodes_setNode_self ..

theorem nodes_setParent_of_ne (h : z ≠ x) (p : Option P) :
    (t.setParent x p).nodes z = t.nodes z := nodes_setNode_of_ne _ h _

@[simp] theorem nodes_setColor_self (c : Color) :
    (t.setColor x c).nodes x = { t.nodes x with color := c } := nodes_setNode_self ..

theorem nodes_setColor_of_ne (h : z ≠ x) (c : Color) :
    (t.setColor x c).nodes z = t.nodes z := nodes_setNode_of_ne _ h _

@[simp] theorem nodes_setChild_self (d : Side) (y : Option P) :
    (t.setChild x d y).nodes x = (t.nodes x).setChild d y := nodes_setNode_self ..

theorem nodes_setChild_of_ne (h : z ≠ x) (d : Side) (y : Option P) :
    (t.setChild x d y).nodes z = t.nodes z := nodes_setNode_of_ne _ h _

theorem nodes_setParentOf_of_notMem (h : z ∉ s.toList) (p : Option P) :
    (t.setParentOf s.root p).nodes z = t.nodes z := by
  cases s with
  | nil => rfl
  | node c l y r =>
    refine nodes_setParent_of_ne t (fun hzy => h ?_) p
    rw [hzy]
    exact mem_append_right _ mem_cons_self

@[simp] theorem ref_setParentOf (x p : Option P) : (t.setParentOf x p).ref = t.ref := by
  cases x <;> rfl

end NetRbTree

/-! ## Subtrees in memory -/

/-- The nodes of a tree are in memory, below a parent. -/
def Holds (h : P → NetRbNode P) : Option P → RedBlack.Tree P → Prop
  | _, .nil => True
  | parent, .node c l x r => h x = ⟨parent, c, l.root, r.root⟩ ∧ Holds h (some x) l
    ∧ Holds h (some x) r

section Holds

variable {h h' : P → NetRbNode P} {parent : Option P} {d : Side} {c : Color}
  {s o : RedBlack.Tree P} {x : P}

theorem holds_bin : Holds h parent (bin d c s x o) ↔ h x = binNode d parent c s.root o.root
    ∧ Holds h (some x) s ∧ Holds h (some x) o := by
  cases d with
  | left => exact Iff.rfl
  | right => exact and_congr_right' and_comm

theorem Holds.congr (hs : Holds h parent s) (heq : ∀ z ∈ s.toList, h' z = h z) :
    Holds h' parent s := by
  induction s generalizing parent with
  | nil => trivial
  | node c l x r ihl ihr =>
    obtain ⟨hx, hl, hr⟩ := hs
    refine ⟨(heq x (mem_append_right _ mem_cons_self)).trans hx,
      ihl hl fun z hz => heq z (mem_append_left _ hz),
      ihr hr fun z hz => heq z (mem_append_right _ (mem_cons_of_mem x hz))⟩

end Holds

variable {parent : Option P} {f : Frame P} {h h' : P → NetRbNode P} {ctx : List (Frame P)}

/-! ## Contexts in memory -/

/-- The parent of a place. -/
def parentOf : List (Frame P) → Option P
  | [] => none
  | f :: _ => some f.key

/-- The root of a tree, with the root of what is at the place. -/
def ctxRoot (hole : Option P) : List (Frame P) → Option P
  | [] => hole
  | f :: ctx => ctxRoot (some f.key) ctx

theorem root_plug (ctx : List (Frame P)) (s : RedBlack.Tree P) :
    (plug ctx s).root = ctxRoot s.root ctx := by
  induction ctx generalizing s with
  | nil => rfl
  | cons f ctx ih => rw [plug, ih, Frame.attach, root_bin, ctxRoot]

theorem exists_ctxRoot (x : P) (ctx : List (Frame P)) : ∃ y, ctxRoot (some x) ctx = some y := by
  induction ctx generalizing x with
  | nil => exact ⟨x, rfl⟩
  | cons f ctx ih => exact ih f.key

/-- The nodes of a context are in memory, with a pointer at the place. -/
def HoldsCtx (h : P → NetRbNode P) (hole : Option P) : List (Frame P) → Prop
  | [] => True
  | f :: ctx => h f.key = binNode f.side (parentOf ctx) f.color hole f.sibling.root
    ∧ Holds h (some f.key) f.sibling ∧ HoldsCtx h (some f.key) ctx

theorem HoldsCtx.congr {hole : Option P} (hctx : HoldsCtx h hole ctx)
    (heq : ∀ z ∈ ctxKeys ctx, h' z = h z) : HoldsCtx h' hole ctx := by
  induction ctx generalizing hole with
  | nil => trivial
  | cons f ctx ih =>
    obtain ⟨hf, hs, hrest⟩ := hctx
    refine ⟨(heq _ (mem_ctxKeys_cons.mpr (.inl rfl))).trans hf,
      hs.congr fun z hz => heq z (mem_ctxKeys_cons.mpr (.inr (.inl hz))),
      ih hrest fun z hz => heq z (mem_ctxKeys_cons.mpr (.inr (.inr hz)))⟩

theorem holds_plug {h : P → NetRbNode P} :
    Holds h none (plug ctx s) ↔ Holds h (parentOf ctx) s ∧ HoldsCtx h s.root ctx := by
  induction ctx generalizing s with
  | nil => exact (and_iff_left trivial).symm
  | cons f ctx ih =>
    rw [plug, ih, Frame.attach, holds_bin, root_bin]
    constructor
    · rintro ⟨⟨hf, hs, ho⟩, hctx⟩
      exact ⟨hs, hf, ho, hctx⟩
    · rintro ⟨hs, hf, ho, hctx⟩
      exact ⟨⟨hf, hs, ho⟩, hctx⟩

/-- **A tree is in memory.** -/
structure Rep (t : NetRbTree P) (s : RedBlack.Tree P) : Prop where
  ref : t.ref = s.root
  nodes : Holds t.nodes none s
  nodup : s.toList.Nodup

/-- A context is in memory. -/
structure RepCtx (t : NetRbTree P) (ctx : List (Frame P)) (hole : Option P) : Prop where
  ref : t.ref = ctxRoot hole ctx
  nodes : HoldsCtx t.nodes hole ctx

section Place

variable {t t' : NetRbTree P} {ctx : List (Frame P)} {s : RedBlack.Tree P} {hole : Option P} {x : P}

/-- A tree in memory with a place in it. -/
theorem rep_plug_iff : Rep t (plug ctx s) ↔ RepCtx t ctx s.root ∧ Holds t.nodes (parentOf ctx) s
    ∧ s.toList.Nodup ∧ (ctxKeys ctx).Nodup ∧ ∀ z ∈ s.toList, z ∉ ctxKeys ctx := by
  constructor
  · rintro ⟨href, hnodes, hnodup⟩
    obtain ⟨hs, hctx⟩ := holds_plug.mp hnodes
    exact ⟨⟨href.trans (root_plug ctx s), hctx⟩, hs, nodup_plug_iff.mp hnodup⟩
  · rintro ⟨hctx, hs, hnodup⟩
    exact ⟨hctx.ref.trans (root_plug ctx s).symm, holds_plug.mpr ⟨hs, hctx.nodes⟩,
      nodup_plug_iff.mpr hnodup⟩

theorem RepCtx.congr (h : RepCtx t ctx hole) (href : t'.ref = t.ref)
    (heq : ∀ z ∈ ctxKeys ctx, t'.nodes z = t.nodes z) : RepCtx t' ctx hole :=
  ⟨href.trans h.ref, h.nodes.congr heq⟩

theorem mem_toList_of_root (h : s.root = some x) : x ∈ s.toList := by
  cases s with
  | nil => cases h
  | node c l y r =>
    rw [← Option.some.inj h]
    exact mem_append_right _ mem_cons_self

variable {d : Side} {c : Color} {x y : P} {o a b : RedBlack.Tree P} {e : RedBlack.Tree P}

/-- A node at a place, its two subtrees and the context have no key in
common. -/
structure Apart (ctx : List (Frame P)) (s : RedBlack.Tree P) (x : P) (o : RedBlack.Tree P) :
    Prop where
  left : x ∉ s.toList
  right : x ∉ o.toList
  nodupLeft : s.toList.Nodup
  nodupRight : o.toList.Nodup
  disjoint : ∀ z ∈ s.toList, z ∉ o.toList
  nodupCtx : (ctxKeys ctx).Nodup
  nodeCtx : x ∉ ctxKeys ctx
  leftCtx : ∀ z ∈ s.toList, z ∉ ctxKeys ctx
  rightCtx : ∀ z ∈ o.toList, z ∉ ctxKeys ctx

theorem apart_iff : (plug ctx (bin d c s x o)).toList.Nodup ↔ Apart ctx s x o := by
  rw [nodup_plug_iff, nodup_bin_iff, forall_mem_bin]
  constructor
  · rintro ⟨⟨⟨hxs, hxo⟩, hsn, hon, hso⟩, hcn, hx, hs, ho⟩
    exact ⟨hxs, hxo, hsn, hon, hso, hcn, hx, hs, ho⟩
  · rintro ⟨hxs, hxo, hsn, hon, hso, hcn, hx, hs, ho⟩
    exact ⟨⟨⟨hxs, hxo⟩, hsn, hon, hso⟩, hcn, hx, hs, ho⟩

/-- A tree in memory with a node in it. -/
theorem rep_bin_iff : Rep t (plug ctx (bin d c s x o)) ↔ RepCtx t ctx (some x)
    ∧ t.nodes x = binNode d (parentOf ctx) c s.root o.root ∧ Holds t.nodes (some x) s
    ∧ Holds t.nodes (some x) o ∧ Apart ctx s x o := by
  rw [rep_plug_iff, root_bin, holds_bin, ← nodup_plug_iff, apart_iff]
  simp only [and_assoc]

theorem Rep.node (h : Rep t (plug ctx (bin d c s x o))) :
    t.nodes x = binNode d (parentOf ctx) c s.root o.root := (rep_bin_iff.mp h).2.1

variable [DecidableEq P]

theorem Holds.setParentOf {t : NetRbTree P} (hs : Holds t.nodes parent s) (hnodup : s.toList.Nodup)
    (p : Option P) : Holds (t.setParentOf s.root p).nodes p s := by
  cases s with
  | nil => trivial
  | node c l x r =>
    obtain ⟨hx, hl, hr⟩ := hs
    obtain ⟨⟨hxl, hxr⟩, -⟩ := nodup_bin_iff (d := .left) (c := c).mp hnodup
    refine ⟨?_, hl.congr fun z hz => ?_, hr.congr fun z hz => ?_⟩
    · show (t.setParent x p).nodes x = _
      rw [nodes_setParent_self, hx]
    · exact nodes_setParent_of_ne t (ne_of_mem_of_not_mem hz hxl) p
    · exact nodes_setParent_of_ne t (ne_of_mem_of_not_mem hz hxr) p

theorem RepCtx.setChild (h : RepCtx t (f :: ctx) hole) (hnodup : (ctxKeys (f :: ctx)).Nodup)
    (new : Option P) : RepCtx (t.setChild f.key f.side new) (f :: ctx) new := by
  obtain ⟨hf, hs, hrest⟩ := h.nodes
  rw [(ctxKeys_cons_perm f ctx).nodup_iff, nodup_cons, mem_append, not_or] at hnodup
  refine ⟨h.ref, ?_, hs.congr fun z hz => ?_, hrest.congr fun z hz => ?_⟩
  · rw [nodes_setChild_self, hf, binNode_setChild]
  · exact nodes_setChild_of_ne t (ne_of_mem_of_not_mem hz hnodup.1.1) _ _
  · exact nodes_setChild_of_ne t (ne_of_mem_of_not_mem hz hnodup.1.2) _ _

/-- Whichever side is compared, the pointer that is set is the one at the
place. -/
theorem RepCtx.relink_cons (h : RepCtx t (f :: ctx) (some x)) (hx : x ∉ ctxKeys (f :: ctx))
    (d : Side) (new : Option P) : t.relink d (some f.key) x new = t.setChild f.key f.side new := by
  have hf := h.nodes.1
  show (if _ then _ else _) = _
  by_cases hd : d = f.side
  · rw [hd, if_pos (by rw [hf, binNode_child])]
  · rw [Side.eq_other_of_ne hd, hf, binNode_child_other, if_neg, Side.other_other]
    intro hroot
    exact hx (mem_ctxKeys_cons.mpr (.inr (.inl (mem_toList_of_root hroot))))

/-- **The pointer at a place is made to point elsewhere.** -/
theorem RepCtx.relink (h : RepCtx t ctx (some x)) (hnodup : (ctxKeys ctx).Nodup)
    (hx : x ∉ ctxKeys ctx) (d : Side) (new : Option P) :
    RepCtx (t.relink d (parentOf ctx) x new) ctx new
      ∧ ∀ z, z ∉ ctxKeys ctx → (t.relink d (parentOf ctx) x new).nodes z = t.nodes z := by
  cases ctx with
  | nil => exact ⟨⟨rfl, trivial⟩, fun _ _ => rfl⟩
  | cons f ctx =>
    rw [parentOf, h.relink_cons hx]
    refine ⟨h.setChild hnodup new, fun z hz => ?_⟩
    exact nodes_setChild_of_ne t (fun hzf => hz (mem_ctxKeys_cons.mpr (.inl hzf))) _ _

/-- **A node gets another colour.** -/
theorem Rep.setColor (h : Rep t (plug ctx (bin d c s x o))) (c' : Color) :
    Rep (t.setColor x c') (plug ctx (bin d c' s x o)) := by
  obtain ⟨hctx, hx, hs, ho, hapart⟩ := rep_bin_iff.mp h
  refine rep_bin_iff.mpr ⟨hctx.congr rfl fun z hz => ?_, ?_, hs.congr fun z hz => ?_,
    ho.congr fun z hz => ?_, hapart⟩
  · exact nodes_setColor_of_ne t (ne_of_mem_of_not_mem hz hapart.nodeCtx) c'
  · rw [nodes_setColor_self, hx, binNode_with_color]
  · exact nodes_setColor_of_ne t (ne_of_mem_of_not_mem hz hapart.left) c'
  · exact nodes_setColor_of_ne t (ne_of_mem_of_not_mem hz hapart.right) c'

theorem Rep.setColor_other {w : P} {c₁ : Color}
    (h : Rep t (plug ctx (bin d c s x (bin d c₁ a w b)))) (c' : Color) :
    Rep (t.setColor w c') (plug ctx (bin d c s x (bin d c' a w b))) := by
  rw [← plug_other] at h ⊢
  exact h.setColor c'

/-- **A rotation.** -/
theorem Rep.rotate {c' : Color} (h : Rep t (plug ctx (bin d c a x (bin d c' b y e)))) :
    ∃ t', t.rotate d x = some t' ∧ Rep t' (plug ctx (bin d c' (bin d c a x b) y e)) := by
  obtain ⟨hctx, hx, ha, hright, hapart⟩ := rep_bin_iff.mp h
  obtain ⟨hy, hb, he⟩ := holds_bin.mp hright
  obtain ⟨⟨hyb, hye⟩, hbn, hen, hbe⟩ := nodup_bin_iff.mp hapart.nodupRight
  obtain ⟨hxy, hxb, hxe⟩ : x ≠ y ∧ x ∉ b.toList ∧ x ∉ e.toList := by
    simpa only [mem_toList_bin, not_or] using hapart.right
  have hya : y ∉ a.toList := fun hz => hapart.disjoint y hz (mem_toList_bin.mpr (.inl rfl))
  have hab : ∀ z ∈ a.toList, z ∉ b.toList := fun z hz hzb =>
    hapart.disjoint z hz (mem_toList_bin.mpr (.inr (.inl hzb)))
  obtain ⟨hyctx, hbctx, hectx⟩ := forall_mem_bin.mp hapart.rightCtx
  unfold NetRbTree.rotate
  simp only [hx, hy, binNode_child_other, root_bin, binNode_parent, binNode_child]
  refine ⟨_, rfl, ?_⟩
  -- the inner subtree goes below the node
  set t₁ := (t.setChild x d.other b.root).setParentOf b.root (some x)
  have hb₁ : Holds t₁.nodes (some x) b :=
    (hb.congr fun z hz => nodes_setChild_of_ne t
      (ne_of_mem_of_not_mem hz hxb) _ _).setParentOf hbn _
  have h₁ : ∀ z, z ≠ x → z ∉ b.toList → t₁.nodes z = t.nodes z := fun z hzx hzb =>
    (nodes_setParentOf_of_notMem _ hzb _).trans (nodes_setChild_of_ne t hzx _ _)
  have hx₁ : t₁.nodes x = binNode d (parentOf ctx) c a.root b.root := by
    rw [nodes_setParentOf_of_notMem _ hxb, nodes_setChild_self, hx, binNode_setChild_other]
  have href₁ : t₁.ref = t.ref := ref_setParentOf ..
  clear_value t₁
  -- the node goes below the one that takes its place
  set t₂ := (t₁.setChild y d (some x)).setParent y (parentOf ctx)
  have h₂ : ∀ z, z ≠ y → t₂.nodes z = t₁.nodes z := fun z hz =>
    (nodes_setParent_of_ne _ hz _).trans (nodes_setChild_of_ne _ hz _ _)
  have hy₂ : t₂.nodes y = binNode d (parentOf ctx) c' (some x) e.root := by
    rw [nodes_setParent_self, nodes_setChild_self, h₁ y hxy.symm hyb, hy,
      binNode_setChild, binNode_with_parent]
  have hctx₂ : RepCtx t₂ ctx (some x) :=
    hctx.congr href₁ fun z hz => (h₂ z (ne_of_mem_of_not_mem hz hyctx)).trans
      (h₁ z (ne_of_mem_of_not_mem hz hapart.nodeCtx) fun hzb => hbctx z hzb hz)
  clear_value t₂
  -- and that one below the parent
  obtain ⟨hctx₃, h₃⟩ := hctx₂.relink hapart.nodupCtx hapart.nodeCtx d (some y)
  generalize t₂.relink d (parentOf ctx) x (some y) = t₃ at hctx₃ h₃
  have h₄ : ∀ z, z ≠ x → (t₃.setParent x (some y)).nodes z = t₃.nodes z := fun z hz =>
    nodes_setParent_of_ne _ hz _
  refine rep_bin_iff.mpr ⟨hctx₃.congr rfl fun z hz => h₄ z (ne_of_mem_of_not_mem hz hapart.nodeCtx),
    ?_, holds_bin.mpr ⟨?_, ha.congr fun z hz => ?_, hb₁.congr fun z hz => ?_⟩,
    he.congr fun z hz => ?_, ?_⟩
  · rw [h₄ y hxy.symm, h₃ y hyctx, hy₂, root_bin]
  · rw [nodes_setParent_self, h₃ x hapart.nodeCtx, h₂ x hxy, hx₁, binNode_with_parent]
  · have hzx := ne_of_mem_of_not_mem hz hapart.left
    rw [h₄ z hzx, h₃ z (hapart.leftCtx z hz), h₂ z (ne_of_mem_of_not_mem hz hya),
      h₁ z hzx (hab z hz)]
  · rw [h₄ z (ne_of_mem_of_not_mem hz hxb), h₃ z (hbctx z hz), h₂ z (ne_of_mem_of_not_mem hz hyb)]
  · have hzx := ne_of_mem_of_not_mem hz hxe
    rw [h₄ z hzx, h₃ z (hectx z hz), h₂ z (ne_of_mem_of_not_mem hz hye),
      h₁ z hzx fun hzb => hbe z hzb hz]
  · refine (apart_iff (d := d) (c := c')).mp ?_
    rw [toList_plug_congr (toList_rotate c c')]
    exact h.nodup

theorem Rep.rotate_other {c' : Color} (h : Rep t (plug ctx (bin d c (bin d c' a y b) x e))) :
    ∃ t', t.rotate d.other x = some t' ∧ Rep t' (plug ctx (bin d c' a y (bin d c b x e))) := by
  have h' : Rep t (plug ctx (bin d.other c e x (bin d.other c' b y a))) := by
    rw [bin_other, bin_other]
    exact h
  obtain ⟨t', hrotate, hrep⟩ := h'.rotate
  rw [bin_other, bin_other] at hrep
  exact ⟨t', hrotate, hrep⟩

/-- The side of a place below its parent. -/
def sideOf : List (Frame P) → Side
  | [] => .left
  | f :: _ => f.side

/-- **A node becomes a leaf.** -/
theorem Rep.link (h : Rep t (plug ctx .nil)) (hx : x ∉ ctxKeys ctx) :
    Rep (t.link x (parentOf ctx) (sideOf ctx)) (plug ctx (.node .red .nil x .nil)) := by
  obtain ⟨hctx, -, -, hnodup, -⟩ := rep_plug_iff.mp h
  have hapart : Apart ctx .nil x .nil := ⟨not_mem_nil, not_mem_nil, nodup_nil,
    nodup_nil, fun _ _ => not_mem_nil, hnodup, hx, nofun, nofun⟩
  have hctx₁ : RepCtx (t.setNode x ⟨parentOf ctx, .red, none, none⟩) ctx none :=
    hctx.congr rfl fun z hz => nodes_setNode_of_ne t (ne_of_mem_of_not_mem hz hx) _
  refine (rep_bin_iff (d := .left)).mpr ⟨?_, ?_, trivial, trivial, hapart⟩
  · cases ctx with
    | nil => exact ⟨rfl, trivial⟩
    | cons f ctx => exact hctx₁.setChild hnodup (some x)
  · cases ctx with
    | nil => exact nodes_setNode_self ..
    | cons f ctx =>
      have hne : x ≠ f.key := fun hxf => hx (mem_ctxKeys_cons.mpr (.inl hxf))
      exact (nodes_setChild_of_ne _ hne _ _).trans (nodes_setNode_self ..)

/-- **A node with at most one child is taken out.** -/
theorem Rep.eraseWithOneChild (h : Rep t (plug ctx (bin d c .nil x o))) :
    let r := t.eraseWithOneChild x o.root
    Rep r.tree (plug ctx o) ∧ r.parent = parentOf ctx ∧ r.color = c := by
  obtain ⟨hctx, hx, -, ho, hapart⟩ := rep_bin_iff.mp h
  unfold NetRbTree.eraseWithOneChild
  simp only [hx, binNode_parent, binNode_color, and_true]
  have ho₁ := ho.setParentOf hapart.nodupRight (parentOf ctx)
  have hctx₁ : RepCtx (t.setParentOf o.root (parentOf ctx)) ctx (some x) :=
    hctx.congr (ref_setParentOf ..) fun z hz =>
      nodes_setParentOf_of_notMem t (fun hzo => hapart.rightCtx z hzo hz) _
  obtain ⟨hctx₂, h₂⟩ := hctx₁.relink hapart.nodupCtx hapart.nodeCtx .left o.root
  exact rep_plug_iff.mpr ⟨hctx₂, ho₁.congr fun z hz => h₂ z (hapart.rightCtx z hz),
    hapart.nodupRight, hapart.nodupCtx, hapart.rightCtx⟩

/-- **A node takes the place of another.** -/
theorem Rep.replace {l r : RedBlack.Tree P} (h : Rep t (plug ctx (.node c l x r)))
    (hy : y ∉ (plug ctx (.node c l x r)).toList) :
    Rep (t.replace x y) (plug ctx (.node c l y r)) := by
  obtain ⟨hctx, hx, hl, hr, hapart⟩ := (rep_bin_iff (d := .left)).mp h
  rw [(toList_plug_perm _ _).mem_iff, mem_append, not_or] at hy
  obtain ⟨hyt, hyctx⟩ := hy
  have hyl : y ∉ l.toList := fun hz => hyt ((mem_toList_bin (d := .left)).mpr (.inr (.inl hz)))
  have hyr : y ∉ r.toList := fun hz => hyt ((mem_toList_bin (d := .left)).mpr (.inr (.inr hz)))
  obtain ⟨hctx₁, h₁⟩ := hctx.relink hapart.nodupCtx hapart.nodeCtx .left (some y)
  unfold NetRbTree.replace
  rw [hx, binNode_parent]
  generalize t.relink .left (parentOf ctx) x (some y) = t₁ at hctx₁ h₁
  have hx₁ : t₁.nodes x = ⟨parentOf ctx, c, l.root, r.root⟩ := (h₁ x hapart.nodeCtx).trans hx
  simp only [hx₁]
  -- the two subtrees go below the new node
  have hl₂ := (hl.congr fun z hz => h₁ z (hapart.leftCtx z hz)).setParentOf
    hapart.nodupLeft (some y)
  set t₂ := t₁.setParentOf l.root (some y)
  have h₂ : ∀ z, z ∉ l.toList → t₂.nodes z = t₁.nodes z := fun z hz =>
    nodes_setParentOf_of_notMem t₁ hz _
  have hx₂ := (h₂ x hapart.left).trans hx₁
  rw [hx₂]
  have href₂ : t₂.ref = t₁.ref := ref_setParentOf ..
  clear_value t₂
  have hr₃ := (hr.congr fun z hz => (h₂ z fun hzl => hapart.disjoint z hzl hz).trans
    (h₁ z (hapart.rightCtx z hz))).setParentOf hapart.nodupRight (some y)
  set t₃ := t₂.setParentOf r.root (some y)
  have h₃ : ∀ z, z ∉ r.toList → t₃.nodes z = t₂.nodes z := fun z hz =>
    nodes_setParentOf_of_notMem t₂ hz _
  have hx₃ := (h₃ x hapart.right).trans hx₂
  have href₃ : t₃.ref = t₂.ref := ref_setParentOf ..
  rw [hx₃]
  clear_value t₃
  have h₄ : ∀ z, z ≠ y → (t₃.setNode y ⟨parentOf ctx, c, l.root, r.root⟩).nodes z = t₃.nodes z :=
    fun z hz => nodes_setNode_of_ne t₃ hz _
  refine (rep_bin_iff (d := .left)).mpr ⟨?_, nodes_setNode_self .., hl₂.congr fun z hz => ?_,
    hr₃.congr fun z hz => ?_, ⟨hyl, hyr, hapart.nodupLeft, hapart.nodupRight, hapart.disjoint,
      hapart.nodupCtx, hyctx, hapart.leftCtx, hapart.rightCtx⟩⟩
  · refine hctx₁.congr (href₃.trans href₂) fun z hz => ?_
    rw [h₄ z (ne_of_mem_of_not_mem hz hyctx), h₃ z fun hzr => hapart.rightCtx z hzr hz,
      h₂ z fun hzl => hapart.leftCtx z hzl hz]
  · rw [h₄ z (ne_of_mem_of_not_mem hz hyl), h₃ z (hapart.disjoint z hz)]
  · exact h₄ z (ne_of_mem_of_not_mem hz hyr)

end Place

/-! ## The next node takes the place -/

section TwoChildren

variable {t : NetRbTree P} {ctx rctx : List (Frame P)} {c cy : Color} {x y : P}
  {l yr R : RedBlack.Tree P} {rounds : ℕ}

theorem Holds.farthest {d : Side} {o : RedBlack.Tree P} {root : P}
    (h : Holds t.nodes parent (plug ctx (bin d c .nil x o)))
    (hroot : (plug ctx (bin d c .nil x o)).root = some root) (hctx : ∀ f ∈ ctx, f.side = d)
    (hrounds : (plug ctx (bin d c .nil x o)).toList.length ≤ rounds) :
    t.farthest d rounds root = some x := by
  -- from the root down: the last frame of the context is the first on the way
  induction ctx using reverseRecOn generalizing parent root rounds with
  | nil =>
    obtain ⟨hx, -⟩ := holds_bin.mp h
    rw [plug, root_bin, Option.some.injEq] at hroot
    rw [plug, (toList_bin_perm ..).length_eq] at hrounds
    obtain ⟨rounds, rfl⟩ := Nat.exists_eq_add_of_le' (Nat.le_trans (Nat.le_add_left 1 _) hrounds)
    rw [← hroot, NetRbTree.farthest, hx, binNode_child]
    rfl
  | append_singleton ctx f ih =>
    have hf : f.side = d := hctx f (mem_append_right _ mem_cons_self)
    rw [plug_append, plug, plug, Frame.attach, hf] at h hroot hrounds
    obtain ⟨hkey, hsub, -⟩ := holds_bin.mp h
    rw [root_bin, Option.some.injEq] at hroot
    rw [(toList_bin_perm ..).length_eq, length_cons, length_append] at hrounds
    obtain ⟨rounds, rfl⟩ := Nat.exists_eq_add_of_le' (Nat.le_trans (Nat.le_add_left 1 _) hrounds)
    obtain ⟨sub, hsubroot⟩ : ∃ sub, (plug ctx (bin d c .nil x o)).root = some sub := by
      rw [root_plug, root_bin]
      exact exists_ctxRoot x ctx
    rw [← hroot, NetRbTree.farthest, hkey, binNode_child, hsubroot]
    refine ih hsub hsubroot (fun g hg => hctx g (mem_append_left _ hg)) ?_
    omega

/-- A subtree is exchanged below a node that stays. -/
theorem Holds.plug_congr {s s' : RedBlack.Tree P} (hs : Holds h parent (plug ctx s))
    (hroot : s'.root = s.root) (heq : ∀ z ∈ ctxKeys ctx, h' z = h z)
    (hsub : ∀ p, Holds h p s → Holds h' p s') : Holds h' parent (plug ctx s') := by
  induction ctx generalizing s s' with
  | nil => exact hsub parent hs
  | cons f ctx ih =>
    refine ih hs (by rw [Frame.attach, Frame.attach, root_bin, root_bin])
      (fun z hz => heq z (mem_ctxKeys_cons.mpr (.inr (.inr hz)))) fun p hp => ?_
    obtain ⟨hf, hs, ho⟩ := holds_bin.mp hp
    refine holds_bin.mpr ⟨?_, hsub _ hs, ho.congr fun z hz =>
      heq z (mem_ctxKeys_cons.mpr (.inr (.inl hz)))⟩
    rw [heq f.key (mem_ctxKeys_cons.mpr (.inl rfl)), hf, hroot]

variable [DecidableEq P]

/-- The next node is at the place, with a right subtree: it takes the left
one. -/
theorem RepCtx.takeLeft {r : RedBlack.Tree P} {q : Option P} (hctx : RepCtx t ctx (some y))
    (hxy : x ≠ y) (hx : t.nodes x = ⟨parentOf ctx, c, l.root, q⟩) (hy : (t.nodes y).right = r.root)
    (hl : Holds t.nodes (some x) l) (hr : Holds t.nodes (some y) r) (hapart : Apart ctx l y r) :
    Rep (t.takeLeft x y) (plug ctx (.node c l y r)) := by
  unfold NetRbTree.takeLeft
  simp only [hx, hy, nodes_setNode_of_ne _ hxy, nodes_setChild_of_ne _ hxy]
  generalize (t.nodes y).left = q'
  set t₁ := (t.setNode y ⟨parentOf ctx, c, q', r.root⟩).setChild y .left l.root
  have h₁ : ∀ z, z ≠ y → t₁.nodes z = t.nodes z := fun z hz =>
    (nodes_setChild_of_ne _ hz _ _).trans (nodes_setNode_of_ne _ hz _)
  have hy₁ : t₁.nodes y = ⟨parentOf ctx, c, l.root, r.root⟩ := by
    rw [nodes_setChild_self, nodes_setNode_self]
    rfl
  have href₁ : t₁.ref = t.ref := rfl
  clear_value t₁
  have h₂ : ∀ z, z ∉ l.toList → (t₁.setParentOf l.root (some y)).nodes z = t₁.nodes z :=
    fun z hz => nodes_setParentOf_of_notMem t₁ hz _
  refine (rep_bin_iff (d := .left)).mpr ⟨?_, (h₂ y hapart.left).trans hy₁, ?_,
    hr.congr fun z hz => ?_, hapart⟩
  · refine hctx.congr ((ref_setParentOf ..).trans href₁) fun z hz => ?_
    rw [h₂ z fun hzl => hapart.leftCtx z hzl hz, h₁ z (ne_of_mem_of_not_mem hz hapart.nodeCtx)]
  · exact (hl.congr fun z hz => h₁ z (ne_of_mem_of_not_mem hz hapart.left)).setParentOf
      hapart.nodupLeft _
  · rw [h₂ z fun hzl => hapart.disjoint z hzl hz, h₁ z (ne_of_mem_of_not_mem hz hapart.right)]

/-- What taking the right subtree leaves. -/
structure TakesRight (t : NetRbTree P) (y : P) (s s' : RedBlack.Tree P) (t' : NetRbTree P) :
    Prop where
  holds : Holds t'.nodes (some y) s'
  right : (t'.nodes y).right = s'.root
  elsewhere : ∀ z, z ∉ s.toList → t'.nodes z = t.nodes z
  ref : t'.ref = t.ref

theorem Holds.takeRight (hR : R = plug (f :: rctx) (bin .left cy .nil y yr))
    (h : Holds t.nodes (some x) R) (hnodup : R.toList.Nodup) (hx : x ∉ R.toList)
    (hside : f.side = .left) (hright : (t.nodes x).right = R.root)
    (hy : (t.nodes y).right = yr.root) :
    TakesRight t y R (plug (f :: rctx) yr) (t.takeRight x y f.key) := by
  have hroot : R.root = (plug (f :: rctx) yr).root := by
    rw [hR, root_plug, root_plug, ctxRoot, ctxRoot]
  rw [hroot] at hright
  have hmem : ∀ z, z ∈ R.toList ↔ z = y ∨ z ∈ yr.toList ∨ z ∈ ctxKeys (f :: rctx) := by
    intro z
    rw [hR, (toList_plug_perm _ _).mem_iff, mem_append, mem_toList_bin, or_assoc]
    simp [RedBlack.Tree.toList]
  have hmem' : ∀ z, z ∈ (plug (f :: rctx) yr).toList ↔ z ∈ yr.toList ∨ z ∈ ctxKeys (f :: rctx) := by
    intro z
    rw [(toList_plug_perm _ _).mem_iff, mem_append]
  rw [hR] at h hnodup
  obtain ⟨hbin, hkeys, hdisj⟩ := nodup_plug_iff.mp hnodup
  obtain ⟨⟨-, hyyr⟩, -, hyrn, -⟩ := nodup_bin_iff.mp hbin
  obtain ⟨hyctx, -, hyrctx⟩ := forall_mem_bin.mp hdisj
  have hnodup' : (plug (f :: rctx) yr).toList.Nodup := nodup_plug_iff.mpr ⟨hyrn, hkeys, hyrctx⟩
  have hfkey : f.key ∈ ctxKeys (f :: rctx) := mem_ctxKeys_cons.mpr (.inl rfl)
  have hyR' : y ∉ (plug (f :: rctx) yr).toList := fun hz => ((hmem' y).mp hz).elim hyyr hyctx
  have hxy : x ≠ y := fun hz => hx ((hmem x).mpr (.inl hz))
  have hxyr : x ∉ yr.toList := fun hz => hx ((hmem x).mpr (.inr (.inl hz)))
  have hxf : x ≠ f.key := fun hz => hx ((hmem x).mpr (.inr (.inr (hz ▸ hfkey))))
  have hfyr : f.key ∉ yr.toList := fun hz => hyrctx _ hz hfkey
  rw [(ctxKeys_cons_perm f rctx).nodup_iff, nodup_cons, mem_append, not_or] at hkeys
  obtain ⟨⟨hfs, hfr⟩, -⟩ := hkeys
  unfold NetRbTree.takeRight
  simp only [hy]
  -- the right subtree of the node goes where the node was
  set t₂ := (t.setParentOf yr.root (some f.key)).setChild f.key .left yr.root
  have h₂ : ∀ z, z ∉ yr.toList → z ≠ f.key → t₂.nodes z = t.nodes z := fun z hz hzf =>
    (nodes_setChild_of_ne _ hzf _ _).trans (nodes_setParentOf_of_notMem _ hz _)
  have hR₂ : Holds t₂.nodes (some x) (plug (f :: rctx) yr) := by
    have hroot' : (f.attach yr).root = (f.attach (bin .left cy .nil y yr)).root := by
      rw [Frame.attach, Frame.attach, root_bin, root_bin]
    have hattach : Holds t.nodes (some x) (plug rctx (f.attach (bin .left cy .nil y yr))) := h
    refine hattach.plug_congr hroot'
      (fun z hz => h₂ z (fun hzyr => hyrctx z hzyr (mem_ctxKeys_cons.mpr (.inr (.inr hz))))
        (ne_of_mem_of_not_mem hz hfr)) fun p hp => ?_
    obtain ⟨hf, hs, ho⟩ := holds_bin.mp hp
    obtain ⟨-, -, hyr⟩ := holds_bin.mp hs
    refine holds_bin.mpr ⟨?_, (hyr.setParentOf hyrn _).congr fun z hz => ?_,
      ho.congr fun z hz => ?_⟩
    · rw [nodes_setChild_self, nodes_setParentOf_of_notMem _ hfyr, hf, hside, binNode_setChild]
    · exact nodes_setChild_of_ne _ (ne_of_mem_of_not_mem hz hfyr) _ _
    · exact h₂ z (fun hzyr => hyrctx z hzyr (mem_ctxKeys_cons.mpr (.inr (.inl hz))))
        (ne_of_mem_of_not_mem hz hfs)
  have href₂ : t₂.ref = t.ref := ref_setParentOf ..
  rw [h₂ x hxyr hxf, hright]
  clear_value t₂
  -- and the node above all of it
  have h₃ : ∀ z, z ≠ y → (t₂.setChild y .right (plug (f :: rctx) yr).root).nodes z = t₂.nodes z :=
    fun z hz => nodes_setChild_of_ne _ hz _ _
  rw [h₃ x hxy, h₂ x hxyr hxf, hright]
  refine ⟨(hR₂.congr fun z hz => h₃ z (ne_of_mem_of_not_mem hz hyR')).setParentOf hnodup' _,
    ?_, fun z hz => ?_, (ref_setParentOf ..).trans href₂⟩
  · rw [nodes_setParentOf_of_notMem _ hyR', nodes_setChild_self]
    rfl
  · rw [hmem, not_or, not_or] at hz
    rw [nodes_setParentOf_of_notMem _ fun hzR => ((hmem' z).mp hzR).elim hz.2.1 hz.2.2,
      h₃ z hz.1, h₂ z hz.2.1 fun hzf => hz.2.2 (hzf ▸ hfkey)]

/-- **The next node in order takes the place of a node.** -/
theorem Rep.eraseWithTwoChildren {right : P} (hR : R = plug rctx (bin .left cy .nil y yr))
    (h : Rep t (plug ctx (.node c l x R))) (hsides : ∀ f ∈ rctx, f.side = .left)
    (hright : R.root = some right) (hrounds : R.toList.length ≤ rounds) :
    ∃ r, t.eraseWithTwoChildren rounds x right = some r
      ∧ Rep r.tree (plug (rctx ++ ⟨.right, c, y, l⟩ :: ctx) yr) ∧ r.child = yr.root
      ∧ r.parent = parentOf (rctx ++ ⟨.right, c, y, l⟩ :: ctx) ∧ r.color = cy := by
  subst hR
  obtain ⟨hctx, hx, hl, hr, hapart⟩ := (rep_bin_iff (d := .left)).mp h
  have hfocus : Rep t (plug (rctx ++ ⟨.right, c, x, l⟩ :: ctx) (bin .left cy .nil y yr)) := by
    rw [plug_append]
    exact h
  have hynode := hfocus.node
  have hfirst := toList_plug_first hsides cy y yr
  have hapart' : Apart ctx l y (plug rctx yr) := by
    refine (apart_iff (d := .left) (c := c)).mp (h.nodup.sublist ?_)
    rw [toList_plug, toList_plug]
    refine ((List.Sublist.append_left ?_ l.toList).append_right _).append_left _
    rw [hfirst]
    exact sublist_cons_self x _
  have hxy : x ≠ y := fun heq => hapart.right ((toList_plug_perm _ _).mem_iff.mpr
    (mem_append_left _ (mem_toList_bin.mpr (.inl heq))))
  obtain ⟨hctx₁, h₁⟩ := hctx.relink hapart.nodupCtx hapart.nodeCtx .left (some y)
  unfold NetRbTree.eraseWithTwoChildren
  rw [hr.farthest hright hsides hrounds, Option.bind_some, hx, binNode_parent]
  dsimp only
  generalize t.relink .left (parentOf ctx) x (some y) = t₁ at hctx₁ h₁
  have hx₁ := (h₁ x hapart.nodeCtx).trans hx
  have hy₁ := (h₁ y hapart'.nodeCtx).trans hynode
  have hl₁ := hl.congr fun z hz => h₁ z (hapart.leftCtx z hz)
  rw [hy₁]
  cases rctx with
  | nil =>
    -- the next node is the child itself, and keeps its right subtree
    obtain ⟨-, -, hyr⟩ := holds_bin.mp hr
    refine ⟨_, if_pos rfl, ?_, rfl, rfl, rfl⟩
    exact hctx₁.takeLeft hxy hx₁ (congrArg NetRbNode.right hy₁) hl₁
      (hyr.congr fun z hz => h₁ z (hapart'.rightCtx z hz)) hapart'
  | cons f rctx =>
    have hfx : f.key ≠ x := fun hfx => hapart.right ((toList_plug_perm _ _).mem_iff.mpr
      (mem_append_right _ (mem_ctxKeys_cons.mpr (.inl hfx.symm))))
    refine ⟨_, if_neg hfx, ?_, rfl, rfl, rfl⟩
    have htakes := (hr.congr fun z hz => h₁ z (hapart.rightCtx z hz)).takeRight rfl
      hapart.nodupRight hapart.right (hsides f mem_cons_self) (congrArg NetRbNode.right hx₁)
      (congrArg NetRbNode.right hy₁)
    generalize t₁.takeRight x y f.key = t₂ at htakes
    have hctx₂ : RepCtx t₂ ctx (some y) := hctx₁.congr htakes.ref fun z hz =>
      htakes.elsewhere z fun hzR => hapart.rightCtx z hzR hz
    rw [plug_append]
    exact hctx₂.takeLeft hxy ((htakes.elsewhere x hapart.right).trans hx₁) htakes.right
      (hl₁.congr fun z hz => htakes.elsewhere z (hapart.disjoint z hz)) htakes.holds hapart'

end TwoChildren

end Common

import UbsComm.Common.RbTreeShape

/-!
# The repair of the tree

After a leaf has been linked the tree may have a red node with a red parent,
and after a black node has been taken out a subtree that is one black node
too low. The loops that repair that go up from the place: each round either
ends with a red-black tree, or leaves the same fault nearer to the root
(`insertLoop_spec`, `eraseColor_spec`). They keep the order of the nodes, do
not follow null pointers, and end.
-/

namespace Common

open RedBlack RedBlack.Tree NetRbTree

variable {P : Type*} {t : NetRbTree P} {ctx : List (Frame P)} {s : RedBlack.Tree P} {f : Frame P}

/-! ## Reading -/

theorem Rep.isRedAt (h : Rep t (plug ctx s)) : t.isRedAt s.root = s.isRed := by
  cases s with
  | nil => rfl
  | node c l x r =>
    have hx := h.node (d := .left)
    show decide ((t.nodes x).color = .red) = _
    rw [hx]
    cases c <;> rfl

theorem exists_mem_ctxRoot (hole : Option P) (f : Frame P) (ctx : List (Frame P)) :
    ∃ y ∈ ctxKeys (f :: ctx), ctxRoot hole (f :: ctx) = some y := by
  induction ctx generalizing hole f with
  | nil => exact ⟨f.key, mem_ctxKeys_cons.mpr (.inl rfl), rfl⟩
  | cons g ctx ih =>
    obtain ⟨y, hy, hroot⟩ := ih (some f.key) g
    exact ⟨y, mem_ctxKeys_cons.mpr (.inr (.inr hy)), hroot⟩

theorem Rep.root_ne_ref (h : Rep t (plug (f :: ctx) s)) : s.root ≠ t.ref := by
  obtain ⟨hctx, -, -, -, hdisj⟩ := rep_plug_iff.mp h
  obtain ⟨y, hy, hroot⟩ := exists_mem_ctxRoot s.root f ctx
  rw [hctx.ref, hroot]
  exact fun hs => hdisj y (mem_toList_of_root hs) hy

theorem exists_bin_of_root {x : P} {T : RedBlack.Tree P} (d : Side) (hT : T.isRed = true)
    (hx : T.root = some x) : ∃ a b, T = bin d .red a x b := by
  obtain ⟨a, y, b, rfl⟩ := exists_bin_of_isRed d hT
  rw [root_bin, Option.some.injEq] at hx
  exact ⟨a, b, hx ▸ rfl⟩

theorem Rep.other {d : Side} {c : Color} {p : P} {s T : RedBlack.Tree P}
    (h : Rep t (plug (⟨d, c, p, s⟩ :: ctx) T)) : Rep t (plug (⟨d.other, c, p, T⟩ :: ctx) s) := by
  rw [plug_other]
  exact h

variable [DecidableEq P]

theorem Rep.setBlackOf (h : Rep t s) : Rep (t.setBlackOf t.ref) s.blacken := by
  rw [h.ref]
  cases s with
  | nil => exact h
  | node c l x r =>
    have h : Rep t (plug [] (bin .left c l x r)) := h
    exact h.setColor .black

/-- The side of a place is found from the left child of the node above it. -/
theorem Rep.ite_child_left {α : Type*} {d : Side} {c : Color} {p : P} {s T : RedBlack.Tree P}
    (h : Rep t (plug (⟨d, c, p, s⟩ :: ctx) T)) (hne : T ≠ .nil ∨ s ≠ .nil) (f : Side → α) :
    (if (t.nodes p).child .left = T.root then f .left else f .right) = f d := by
  have hp : Rep t (plug ctx (bin d c T p s)) := h
  obtain ⟨-, hnode, -, -, hapart⟩ := rep_bin_iff.mp hp
  rw [hnode]
  cases d with
  | left => exact if_pos rfl
  | right =>
    refine if_neg fun heq => ?_
    have heq : s.root = T.root := heq
    cases T with
    | nil =>
      cases s with
      | nil => exact hne.elim (absurd rfl) (absurd rfl)
      | node => cases heq
    | node _ _ y _ => exact hapart.disjoint y (mem_toList_of_root rfl) (mem_toList_of_root heq)

/-- The tree that is left is red-black again, with these nodes. -/
abbrev Mends (o : Option (NetRbTree P)) (keys : List P) : Prop :=
  ∃ t' T', o = some t' ∧ Rep t' T' ∧ IsRedBlack T' ∧ T'.toList = keys

/-! ## Insertion -/

section Insert

variable {d e : Side} {x p g : P} {s u a b T : RedBlack.Tree P} {rounds : ℕ}

/-- The uncle is black, and the node on the outer side. -/
theorem insertRotate_outer (h : Rep t (plug ctx (bin d .black (bin d .red T p s) g u)))
    (hx : T.root = some x) :
    ∃ t', t.insertRotate d x p g = some (t', x)
      ∧ Rep t' (plug ctx (bin d .black T p (bin d .red s g u))) := by
  have hp : Rep t (plug (⟨d, .black, g, u⟩ :: ctx) (bin d .red T p s)) := h
  have hout : (t.nodes p).child d.other ≠ some x := by
    rw [hp.node, binNode_child_other]
    intro hs
    obtain ⟨-, -, -, -, hapart⟩ := rep_bin_iff.mp hp
    exact hapart.disjoint x (mem_toList_of_root hx) (mem_toList_of_root hs)
  have hp₁ : Rep (t.setColor p .black) (plug ctx (bin d .black (bin d .black T p s) g u)) :=
    hp.setColor .black
  obtain ⟨t', hrotate, hrep⟩ := (hp₁.setColor .red).rotate_other
  refine ⟨t', ?_, hrep⟩
  unfold insertRotate
  rw [if_neg hout, Option.bind_some]
  dsimp only
  rw [hrotate, Option.map_some]

/-- The uncle is black, and the node on the inner side: the parent is the
lower one afterwards. -/
theorem insertRotate_inner
    (h : Rep t (plug ctx (bin d .black (bin d .red s p (bin d .red a x b)) g u))) :
    ∃ t', t.insertRotate d x p g = some (t', p)
      ∧ Rep t' (plug ctx (bin d .black (bin d .red s p a) x (bin d .red b g u))) := by
  have hp : Rep t (plug (⟨d, .black, g, u⟩ :: ctx) (bin d .red s p (bin d .red a x b))) := h
  have hin : (t.nodes p).child d.other = some x := by rw [hp.node, binNode_child_other, root_bin]
  obtain ⟨t₁, hrotate₁, hrep₁⟩ := hp.rotate
  have hx : Rep (t₁.setColor x .black)
      (plug ctx (bin d .black (bin d .black (bin d .red s p a) x b) g u)) := hrep₁.setColor .black
  obtain ⟨t', hrotate, hrep⟩ := (hx.setColor .red).rotate_other
  refine ⟨t', ?_, hrep⟩
  unfold insertRotate
  rw [if_pos hin, hrotate₁, Option.map_some, Option.bind_some]
  dsimp only
  rw [hrotate, Option.map_some]

/-- What one round at a red parent does: the fault is two nodes further up, or
there is none and the node that is left has a black parent. -/
inductive InsertRound (ctx : List (Frame P)) (keys : List P) : NetRbTree P × P → Prop
  | up {t : NetRbTree P} {g : P} {T : RedBlack.Tree P} (rep : Rep t (plug ctx T))
      (root : T.root = some g)
      (overfull : Overfull ctx T) (toList : (plug ctx T).toList = keys) :
      InsertRound ctx keys (t, g)
  | done {t : NetRbTree P} {x : P} {f : Frame P} {T : RedBlack.Tree P}
      (rep : Rep t (plug (f :: ctx) T))
      (root : T.root = some x) (black : f.color = .black)
      (redBlack : IsRedBlack (plug (f :: ctx) T))
      (toList : (plug (f :: ctx) T).toList = keys) : InsertRound ctx keys (t, x)

section

variable (h : Rep t (plug (⟨e, .red, p, s⟩ :: ⟨d, .black, g, u⟩ :: ctx) T))
  (hover : Overfull (⟨e, .red, p, s⟩ :: ⟨d, .black, g, u⟩ :: ctx) T) (hx : T.root = some x)
include h hover hx

theorem insertRotate_round (hu : u.isRed = false) :
    ∃ r, t.insertRotate d x p g = some r ∧ InsertRound ctx
      (plug (⟨e, .red, p, s⟩ :: ⟨d, .black, g, u⟩ :: ctx) T).toList r := by
  by_cases he : e = d
  · subst he
    obtain ⟨t', heq, hrep⟩ := insertRotate_outer h hx
    exact ⟨_, heq, .done (f := ⟨e, .black, p, bin e .red s g u⟩) hrep hx rfl (hover.outer hu)
      (toList_plug_congr (toList_rotate _ _).symm ctx)⟩
  · have he := Side.eq_other_of_ne he
    subst he
    obtain ⟨a, b, rfl⟩ := exists_bin_of_root d hover.isRed hx
    have h' : Rep t (plug ctx (bin d .black (bin d .red s p (bin d .red a x b)) g u)) := by
      rw [← bin_other d .red _ p s]
      exact h
    obtain ⟨t', heq, hrep⟩ := insertRotate_inner h'
    refine ⟨_, heq, .done (f := ⟨d, .black, x, bin d .red b g u⟩) hrep (root_bin ..) rfl
      (hover.inner hu) (toList_plug_congr ?_ ctx)⟩
    show (bin d .black (bin d .red s p a) x (bin d .red b g u)).toList
      = (bin d .black (bin d.other .red (bin d .red a x b) p s) g u).toList
    rw [bin_other]
    cases d <;> simp [bin, RedBlack.Tree.toList]

theorem insertSide_round : ∃ r, t.insertSide d x p g = some r ∧ InsertRound ctx
      (plug (⟨e, .red, p, s⟩ :: ⟨d, .black, g, u⟩ :: ctx) T).toList r := by
  have hg : Rep t (plug ctx (bin d .black (bin e .red T p s) g u)) := h
  have hu : Rep t (plug (⟨d.other, .black, g, bin e .red T p s⟩ :: ctx) u) := .other hg
  have hred := hu.isRedAt
  unfold insertSide
  rw [hg.node, binNode_child_other]
  cases hroot : u.root with
  | none =>
    rw [hroot] at hred
    exact insertRotate_round h hover hx hred.symm
  | some uncle =>
    rw [hroot] at hred
    have hred : t.isRed uncle = u.isRed := hred
    dsimp only
    rw [hred]
    cases hured : u.isRed with
    | false => exact insertRotate_round h hover hx hured
    | true =>
      obtain ⟨ul, ur, rfl⟩ := exists_bin_of_root d hured hroot
      have hp : Rep (t.setColor uncle .black)
          (plug (⟨d, .black, g, bin d .black ul uncle ur⟩ :: ctx) (bin e .red T p s)) := by
        show Rep _ (plug ctx (bin d .black (bin e .red T p s) g (bin d .black ul uncle ur)))
        rw [← bin_other]
        exact hu.setColor .black
      have hg' : Rep ((t.setColor uncle .black).setColor p .black)
          (plug ctx (bin d .black (bin e .black T p s) g (bin d .black ul uncle ur))) :=
        hp.setColor .black
      have hover' := hover.recolor hured
      rw [blacken_bin] at hover'
      exact ⟨_, rfl, .up (hg'.setColor .red) (root_bin ..) hover' (toList_plug_congr
        (toList_bin_congr (toList_bin_congr rfl rfl) (toList_bin_congr rfl rfl)) ctx)⟩

end

theorem insertLoop_stop (h : Rep t (plug (f :: ctx) T)) (hx : T.root = some x)
    (hf : f.color = .black) (rounds : ℕ) : NetRbTree.insertLoop (rounds + 1) t x = some t := by
  obtain ⟨c, a, y, b, rfl⟩ :=
    exists_bin .left (t := T) (by rintro rfl; exact absurd hx.symm (Option.some_ne_none x))
  rw [root_bin, Option.some.injEq] at hx
  subst hx
  have hparent : Rep t (plug ctx (bin f.side f.color (bin .left c a y b) f.key f.sibling)) := h
  have hblack : ¬t.isRed f.key = true := by
    unfold NetRbTree.isRed
    rw [hparent.node, binNode_color, hf]
    decide
  rw [NetRbTree.insertLoop, h.node]
  exact if_pos hblack

theorem insertLoop_succ {r : NetRbTree P × P}
    (h : Rep t (plug (⟨e, .red, p, s⟩ :: ⟨d, .black, g, u⟩ :: ctx) T)) (hred : T.isRed = true)
    (hx : T.root = some x) (heq : t.insertSide d x p g = some r) :
    NetRbTree.insertLoop (rounds + 1) t x = NetRbTree.insertLoop rounds r.1 r.2 := by
  obtain ⟨a, b, rfl⟩ := exists_bin_of_root .left hred hx
  have hp : Rep t (plug (⟨d, .black, g, u⟩ :: ctx) (bin e .red (bin .left .red a x b) p s)) := h
  have hisRed : t.isRed p = true := by
    unfold NetRbTree.isRed
    rw [hp.node, binNode_color]
    rfl
  have hside : (if (t.nodes g).child .left = some p then t.insertLeft x p g
      else t.insertRight x p g) = some r := by
    have hite := hp.ite_child_left (.inl (by cases e <;> nofun)) fun d => t.insertSide d x p g
    rw [root_bin] at hite
    exact hite.trans heq
  rw [NetRbTree.insertLoop, h.node]
  show (if ¬t.isRed p = true then _ else _) = _
  rw [if_neg (not_not_intro hisRed), hp.node, binNode_parent]
  show Option.bind (if (t.nodes g).child .left = some p then _ else _) _ = _
  rw [hside, Option.bind_some]

/-- **The loop of the insertion.** -/
theorem insertLoop_spec (rounds : ℕ) (h : Rep t (plug ctx T)) (hover : Overfull ctx T)
    (hx : T.root = some x) (hrounds : ctx.length < rounds) :
    ∃ t' T', insertLoop rounds t x = some t' ∧ Rep t' T' ∧ IsRedBlack T'.blacken
      ∧ T'.toList = (plug ctx T).toList := by
  induction rounds generalizing t ctx T x with
  | zero => cases hrounds
  | succ rounds ih =>
    cases ctx with
    | nil =>
      obtain ⟨a, b, rfl⟩ := exists_bin_of_root .left hover.isRed hx
      refine ⟨t, _, ?_, h, hover.root, rfl⟩
      rw [insertLoop, h.node]
      rfl
    | cons f ctx =>
      obtain ⟨e, c, p, s⟩ := f
      cases c with
      | black =>
        have hrb := isRedBlack_plug_iff.mpr
          ⟨hover.noRedRed, fun _ => by rfl, hover.frames, hover.bal⟩
        exact ⟨t, _, insertLoop_stop h hx rfl rounds, h,
          by rw [blacken_eq hrb.root]; exact hrb, rfl⟩
      | red =>
        obtain ⟨⟨d, cg, g, u⟩, ctx, rfl, hg⟩ := hover.exists_grandparent rfl
        subst hg
        obtain ⟨r, heq, hround⟩ := insertSide_round h hover hx
        have hloop : insertLoop (rounds + 1) t x
            = insertLoop rounds r.1 r.2 := insertLoop_succ h hover.isRed hx heq
        rw [hloop]
        simp only [List.length_cons] at hrounds
        cases hround with
        | up hrep hroot hover' hlist =>
          obtain ⟨t', T', heq', hrep', hrb, hlist'⟩ := ih hrep hover' hroot (by omega)
          exact ⟨t', T', heq', hrep', hrb, hlist'.trans hlist⟩
        | done hrep hroot hblack hrb hlist =>
          obtain ⟨rounds, rfl⟩ := Nat.exists_eq_succ_of_ne_zero (n := rounds) (by omega)
          exact ⟨_, _, insertLoop_stop hrep hroot hblack _, hrep,
            by rw [blacken_eq hrb.root]; exact hrb, hlist⟩

omit [DecidableEq P] in
theorem overfull_leaf (h : IsRedBlack (plug ctx .nil)) (x : P) :
    Overfull ctx (.node .red .nil x .nil) := by
  obtain ⟨-, -, hctx, n, hn, hbal⟩ := isRedBlack_plug_iff.mp h
  exact ⟨rfl, ⟨fun _ => ⟨rfl, rfl⟩, trivial, trivial⟩, hctx, n, ⟨hn, hn⟩, hbal⟩

/-- **A node that is linked at a place is inserted there.** -/
theorem insert_spec (h : Rep t (plug ctx .nil)) (hrb : IsRedBlack (plug ctx .nil))
    (hx : x ∉ ctxKeys ctx) (hrounds : ctx.length < rounds) :
    Mends ((t.link x (parentOf ctx) (sideOf ctx)).insert rounds x)
      (before ctx ++ x :: after ctx) := by
  obtain ⟨t', T', heq, hrep, hrb', hlist⟩ :=
    insertLoop_spec rounds (h.link hx) (overfull_leaf hrb x) rfl hrounds
  rw [toList_plug] at hlist
  refine ⟨_, T'.blacken, by rw [NetRbTree.insert, heq, Option.map_some], ?_, hrb',
    (toList_blacken T').trans hlist⟩
  exact hrep.setBlackOf

end Insert

/-! ## Removal -/

section Erase

variable {d : Side} {c : Color} {p w : P} {a b T : RedBlack.Tree P} {rounds : ℕ}

/-- What one round of the repair does: there is no fault left, or it is at
another place. -/
inductive EraseRound (place : List (Frame P) → RedBlack.Tree P → Prop) (keys : List P) :
    NetRbTree.EraseColored P → Prop
  | done {t : NetRbTree P} {parent : Option P} {T : RedBlack.Tree P} (rep : Rep t T)
      (redBlack : IsRedBlack T) (toList : T.toList = keys) :
      EraseRound place keys ⟨t, t.ref, parent, true⟩
  | up {t : NetRbTree P} {ctx : List (Frame P)} {T : RedBlack.Tree P} (rep : Rep t (plug ctx T))
      (deficient : Deficient ctx T) (toList : (plug ctx T).toList = keys) (next : place ctx T) :
      EraseRound place keys ⟨t, T.root, parentOf ctx, false⟩

omit [DecidableEq P] in
theorem EraseRound.mono {place place' : List (Frame P) → RedBlack.Tree P → Prop} {keys : List P}
    {r : NetRbTree.EraseColored P} (h : EraseRound place keys r)
    (hplace : ∀ ctx T, place ctx T → place' ctx T) : EraseRound place' keys r := by
  cases h with
  | done hrep hrb hlist => exact .done hrep hrb hlist
  | up hrep hdef hlist hnext => exact .up hrep hdef hlist (hplace _ _ hnext)

section

variable (node : Option P) (h : Rep t (plug (⟨d, c, p, bin d .black a w b⟩ :: ctx) T))
  (hdef : Deficient (⟨d, c, p, bin d .black a w b⟩ :: ctx) T) (hT : T.isRed = false)
include h hdef hT

/-- The child of the sibling on the farther side is red. -/
theorem eraseFar_round (hb : b.isRed = true) :
    ∃ r, t.eraseFar d node p w = some r ∧ ∀ place, EraseRound place
      (plug (⟨d, c, p, bin d .black a w b⟩ :: ctx) T).toList r := by
  obtain ⟨bl, far, br, rfl⟩ := exists_bin_of_isRed d hb
  have hp : Rep t (plug ctx (bin d c T p (bin d .black a w (bin d .red bl far br)))) := h
  have hw := (hp.setColor_other c).setColor .black
  have hfar : Rep (((t.setColor w c).setColor p .black).setColor far .black)
      (plug ctx (bin d .black T p (bin d c a w (bin d .black bl far br)))) := by
    rw [← plug_other] at hw ⊢
    exact hw.setColor_other .black
  obtain ⟨t', hrotate, hrep⟩ := hfar.rotate
  have hrb := hdef.far hT hb
  rw [blacken_bin] at hrb
  have hchild : ((t.setColor w c).setColor p .black).nodes w
      = binNode d (some p) c a.root (some far) := by
    rw [← plug_other] at hw
    rw [hw.node, root_bin]
    rfl
  refine ⟨⟨t', t'.ref, some p, true⟩, ?_, fun _ => .done hrep hrb ?_⟩
  · unfold eraseFar
    simp only [hp.node, binNode_color, hchild, binNode_child_other, hrotate, Option.map_some]
  · exact toList_plug_congr ((toList_rotate c .black).trans
      (toList_bin_congr rfl (toList_bin_congr rfl (toList_bin_congr rfl rfl)))) ctx

/-- The sibling is black and has a red child. -/
theorem eraseRotate_round (hred : ¬(a.isRed = false ∧ b.isRed = false)) :
    ∃ r, t.eraseRotate d node p w = some r ∧ ∀ place, EraseRound place
      (plug (⟨d, c, p, bin d .black a w b⟩ :: ctx) T).toList r := by
  have hp : Rep t (plug ctx (bin d c T p (bin d .black a w b))) := h
  have hw := h.other
  have hbred : t.isRedAt b.root = b.isRed := by
    rw [← plug_other] at hw
    exact hw.isRedAt
  unfold eraseRotate
  rw [hw.node, binNode_child_other, binNode_child, hbred]
  cases hb : b.isRed with
  | true => exact eraseFar_round node h hdef hT hb
  | false =>
    have ha : a.isRed = true := by
      by_contra ha
      exact hred ⟨Bool.eq_false_iff.mpr ha, hb⟩
    obtain ⟨al, near, ar, rfl⟩ := exists_bin_of_isRed d ha
    -- the nearer child becomes the sibling
    have hnear : Rep (t.setColor near .black)
        (plug (⟨d.other, c, p, T⟩ :: ctx) (bin d .black (bin d .black al near ar) w b)) := by
      have hfocus : Rep t (plug (⟨d, .black, w, b⟩ :: ⟨d.other, c, p, T⟩ :: ctx)
        (bin d .red al near ar)) := hw
      exact hfocus.setColor .black
    obtain ⟨t', hrotate, hrep⟩ := (hnear.setColor .red).rotate_other
    rw [plug_other] at hrep
    have hother : (t'.nodes p).child d.other = some near := by
      rw [hrep.node, binNode_child_other, root_bin]
    rw [root_bin, Option.bind_some, hrotate, Option.bind_some, hother]
    have hkeys : (plug (⟨d, c, p, bin d .black al near (bin d .red ar w b)⟩ :: ctx) T).toList
        = (plug (⟨d, c, p, bin d .black (bin d .red al near ar) w b⟩ :: ctx) T).toList :=
      toList_plug_congr (toList_bin_congr rfl (toList_rotate .black .red).symm) ctx
    rw [← hkeys]
    exact eraseFar_round node hrep (hdef.near hb) hT isRed_bin

theorem eraseOther_round : ∃ r, t.eraseOther d node p w = some r
      ∧ EraseRound (fun ctx' T' => ctx' = ctx ∧ (c = .red → T'.isRed = true))
      (plug (⟨d, c, p, bin d .black a w b⟩ :: ctx) T).toList r := by
  have hp : Rep t (plug ctx (bin d c T p (bin d .black a w b))) := h
  have hw := h.other
  have hared : t.isRedAt a.root = a.isRed := by
    have hfocus : Rep t (plug (⟨d, .black, w, b⟩ :: ⟨d.other, c, p, T⟩ :: ctx) a) := hw
    exact hfocus.isRedAt
  have hbred : t.isRedAt b.root = b.isRed := by
    have hfocus : Rep t (plug (⟨d.other, .black, w, a⟩ :: ⟨d.other, c, p, T⟩ :: ctx) b) := .other hw
    exact hfocus.isRedAt
  have hboth : (¬t.isRedAt (t.nodes w).left = true ∧ ¬t.isRedAt (t.nodes w).right = true)
      ↔ a.isRed = false ∧ b.isRed = false := by
    rw [hw.node, ← hared, ← hbred, Bool.not_eq_true, Bool.not_eq_true]
    cases d with
    | left => exact Iff.rfl
    | right => exact and_comm
  unfold eraseOther
  by_cases hblack : a.isRed = false ∧ b.isRed = false
  · rw [if_pos (hboth.mpr hblack)]
    have hrep := hp.setColor_other .red
    refine ⟨_, rfl, ?_⟩
    rw [hrep.node, binNode_parent, ← root_bin d c T p (bin d .red a w b)]
    exact .up hrep (hdef.recolor hT hblack.1 hblack.2)
      (toList_plug_congr (toList_bin_congr rfl (toList_bin_congr rfl rfl)) ctx)
      ⟨rfl, fun hc => by rw [isRed_bin, decide_eq_true hc]⟩
  · rw [if_neg fun h => hblack (hboth.mp h)]
    obtain ⟨r, heq, hround⟩ := eraseRotate_round node h hdef hT hblack
    exact ⟨r, heq, hround _⟩

end

theorem eraseColorSide_round (node : Option P) (h : Rep t (plug (⟨d, c, p, s⟩ :: ctx) T))
    (hdef : Deficient (⟨d, c, p, s⟩ :: ctx) T) (hT : T.isRed = false) :
    ∃ r, t.eraseColorSide d node p = some r
      ∧ EraseRound (fun ctx' T' => ctx' = ctx ∨ T'.isRed = true)
      (plug (⟨d, c, p, s⟩ :: ctx) T).toList r := by
  obtain ⟨cs, a, w, b, rfl⟩ := exists_bin d hdef.sibling_ne_nil
  have hp : Rep t (plug ctx (bin d c T p (bin d cs a w b))) := h
  have hw := h.other
  unfold NetRbTree.eraseColorSide
  rw [hp.node, binNode_child_other, root_bin]
  dsimp only
  have hred : t.isRed w = decide (cs = .red) := by
    unfold NetRbTree.isRed
    rw [hw.node, binNode_color]
  rw [hred]
  cases cs with
  | black =>
    obtain ⟨r, heq, hround⟩ := eraseOther_round node h hdef hT
    exact ⟨r, heq, hround.mono fun _ _ hnext => .inl hnext.1⟩
  | red =>
    obtain ⟨hdef', ha⟩ := hdef.siblingRed
    obtain ⟨t', hrotate, hrep⟩ := ((hp.setColor_other .black).setColor .red).rotate
    rw [hrotate, Option.bind_some]
    -- the new sibling is black, and the parent red
    obtain ⟨ca, al, y, ar, rfl⟩ := exists_bin d hdef'.sibling_ne_nil
    rw [isRed_bin, decide_eq_false_iff_not] at ha
    cases ca with
    | red => exact absurd rfl ha
    | black =>
      have hother : (t'.nodes p).child d.other = some y := by
        have hp' : Rep t' (plug (⟨d, .black, w, b⟩ :: ctx)
          (bin d .red T p (bin d .black al y ar))) := hrep
        rw [hp'.node, binNode_child_other, root_bin]
      rw [hother]
      obtain ⟨r, heq, hround⟩ := eraseOther_round node hrep hdef' hT
      have hkeys : (plug (⟨d, .red, p, bin d .black al y ar⟩ :: ⟨d, .black, w, b⟩ :: ctx) T).toList
          = (plug (⟨d, c, p, bin d .red (bin d .black al y ar) w b⟩ :: ctx) T).toList :=
        toList_plug_congr (toList_rotate c .red) ctx
      rw [← hkeys]
      exact ⟨r, heq, hround.mono fun _ _ hnext => .inr (hnext.2 rfl)⟩

/-! ## The loop of the removal -/

theorem eraseColor_stop {node : Option P} (hloop : ¬(¬t.isRedAt node ∧ node ≠ t.ref)) (rounds : ℕ)
    (parent : Option P) : eraseColor (rounds + 1) t node parent = some (t.setBlackOf node) := by
  cases parent with
  | none | some parent => exact if_neg hloop

theorem eraseColor_red (h : Rep t (plug ctx T)) (hdef : Deficient ctx T) (hT : T.isRed = true)
    (rounds : ℕ) (parent : Option P) :
    ∃ t', eraseColor (rounds + 1) t T.root parent = some t'
      ∧ Rep t' (plug ctx T.blacken) ∧ IsRedBlack (plug ctx T.blacken) := by
  have hred := h.isRedAt
  obtain ⟨a, x, b, rfl⟩ := exists_bin_of_isRed .left hT
  refine ⟨t.setColor x .black, ?_, ?_, hdef.of_isRed hT⟩
  · exact eraseColor_stop (fun hloop => hloop.1 (hred.trans hT)) rounds parent
  · rw [blacken_bin]
    exact h.setColor .black

/-- **The repair after a removal.** -/
theorem eraseColor_spec (rounds : ℕ) (h : Rep t (plug ctx T)) (hdef : Deficient ctx T)
    (hrounds : ctx.length + 1 < rounds) :
    Mends (eraseColor rounds t T.root (parentOf ctx)) (plug ctx T).toList := by
  induction rounds generalizing t ctx T with
  | zero => cases hrounds
  | succ rounds ih =>
    cases hT : T.isRed with
    | true =>
      obtain ⟨t', heq, hrep, hrb⟩ := eraseColor_red h hdef hT rounds (parentOf ctx)
      exact ⟨t', _, heq, hrep, hrb, toList_plug_congr (toList_blacken T) ctx⟩
    | false =>
      cases ctx with
      | nil =>
        refine ⟨_, _, ?_, h.setBlackOf, hdef.root, toList_blacken T⟩
        have hroot : t.ref = T.root := h.ref
        rw [hroot]
        exact eraseColor_stop (fun hloop => hloop.2 hroot.symm) rounds _
      | cons f ctx =>
        obtain ⟨d, c, p, s⟩ := f
        obtain ⟨r, heq, hround⟩ := eraseColorSide_round T.root h hdef hT
        have hside : (if (t.nodes p).child .left = T.root then t.eraseColorLeft T.root p
            else t.eraseColorRight T.root p) = some r :=
          (h.ite_child_left (.inr hdef.sibling_ne_nil) fun d => t.eraseColorSide d T.root p).trans
            heq
        have hred : ¬t.isRedAt T.root = true := fun hred =>
          Bool.false_ne_true (hT.symm.trans (h.isRedAt.symm.trans hred))
        have hround' : eraseColor (rounds + 1) t T.root (some p) = _ := if_pos ⟨hred, h.root_ne_ref⟩
        dsimp only at hround'
        rw [hside, Option.bind_some] at hround'
        have hpar : parentOf (⟨d, c, p, s⟩ :: ctx) = some p := rfl
        rw [hpar, hround']
        rw [List.length_cons] at hrounds
        cases hround with
        | done hrep hrb hlist =>
          refine ⟨_, _, if_pos rfl, hrep.setBlackOf, ?_, ?_⟩
          · rw [blacken_eq hrb.root]
            exact hrb
          · exact (toList_blacken _).trans hlist
        | up hrep hdef' hlist hnext =>
          rcases hnext with rfl | hred'
          · obtain ⟨t', T', heq', hrep', hrb, hlist'⟩ := ih hrep hdef' (by omega)
            exact ⟨t', T', heq', hrep', hrb, hlist'.trans hlist⟩
          · obtain ⟨rounds, rfl⟩ := Nat.exists_eq_succ_of_ne_zero (n := rounds) (by omega)
            obtain ⟨t', heq', hrep', hrb⟩ := eraseColor_red hrep hdef' hred' rounds _
            exact ⟨t', _, heq', hrep', hrb, (toList_plug_congr (toList_blacken _) _).trans hlist⟩

/-- What is left to do once a node is unlinked. -/
theorem eraseUnlinked_spec {r : NetRbTree.EraseUnlinked P} {o : RedBlack.Tree P}
    (hrep : Rep r.tree (plug ctx o)) (hchild : r.child = o.root) (hparent : r.parent = parentOf ctx)
    (hrb : IsRedBlack (plug ctx (bin d r.color .nil x o))) (hrounds : ctx.length + 1 < rounds) :
    Mends (if r.color = Color.black then eraseColor rounds r.tree r.child r.parent
      else some r.tree) (plug ctx o).toList := by
  rw [hchild, hparent]
  cases hc : r.color with
  | black => exact eraseColor_spec rounds hrep (hrb.unlink.2 hc) hrounds
  | red => exact ⟨_, _, rfl, hrep, hrb.unlink.1 hc, rfl⟩

/-- A node with two children: the first node on the right takes its place. -/
theorem erase_two_spec {l yr R : RedBlack.Tree P} {rctx : List (Frame P)} {cy : Color} {y right : P}
    (hR : R = plug rctx (bin .left cy .nil y yr)) (h : Rep t (plug ctx (.node c l x R)))
    (hrb : IsRedBlack (plug ctx (.node c l x R))) (hsides : ∀ f ∈ rctx, f.side = .left)
    (hright : R.root = some right) (hrounds : (plug ctx (.node c l x R)).toList.length < rounds) :
    Mends ((t.eraseWithTwoChildren rounds x right).bind fun r =>
        if r.color = Color.black then eraseColor rounds r.tree r.child r.parent else some r.tree)
      (before ctx ++ ((l.toList ++ R.toList) ++ after ctx)) := by
  have hlen := length_toList_plug ctx (.node c l x R)
  have hlen' := length_toList_plug (rctx ++ ⟨.right, c, x, l⟩ :: ctx) (bin .left cy .nil y yr)
  have hctx := length_le_ctxKeys (rctx ++ ⟨.right, c, x, l⟩ :: ctx)
  rw [plug_append, ← hR] at hlen'
  have hlen' : (plug ctx (.node c l x R)).toList.length
    = (y :: yr.toList).length + (ctxKeys (rctx ++ ⟨.right, c, x, l⟩ :: ctx)).length := hlen'
  simp only [toList, List.length_append, List.length_cons] at hlen hlen' hctx
  obtain ⟨r, heq, hrep, hchild, hparent, hcolor⟩ := h.eraseWithTwoChildren hR hsides hright
    (show R.toList.length ≤ rounds by omega)
  have hrb' : IsRedBlack
      (plug (rctx ++ ⟨.right, c, y, l⟩ :: ctx) (bin .left r.color .nil y yr)) := by
    rw [hcolor, plug_append, ← hR]
    exact hrb.of_key y
  obtain ⟨t', T', heq', hrep', hrb'', hlist⟩ := eraseUnlinked_spec hrep hchild hparent hrb'
    (show (rctx ++ ⟨.right, c, y, l⟩ :: ctx).length + 1 < rounds by
      rw [List.length_append, List.length_cons]
      omega)
  refine ⟨t', T', by rw [heq, Option.bind_some, heq'], hrep', hrb'', hlist.trans ?_⟩
  rw [plug_append, hR, toList_plug_first hsides]
  exact toList_plug ctx (.node c l y (plug rctx yr))

/-- **A node of the tree is removed.** -/
theorem erase_spec {l r : RedBlack.Tree P} (h : Rep t (plug ctx (.node c l x r)))
    (hrb : IsRedBlack (plug ctx (.node c l x r)))
    (hrounds : (plug ctx (.node c l x r)).toList.length < rounds) :
    Mends (t.erase rounds x) (before ctx ++ ((l.toList ++ r.toList) ++ after ctx)) := by
  have hnode : t.nodes x = ⟨parentOf ctx, c, l.root, r.root⟩ := Rep.node (d := .left) h
  have hlen := length_toList_plug ctx (.node c l x r)
  have hctx := length_le_ctxKeys ctx
  rw [toList, List.length_append, List.length_cons] at hlen
  unfold erase
  rw [hnode]
  cases l with
  | nil =>
    have h : Rep t (plug ctx (bin .left c .nil x r)) := h
    obtain ⟨hrep, hparent, hcolor⟩ := h.eraseWithOneChild
    obtain ⟨t', T', heq, hrep', hrb', hlist⟩ := eraseUnlinked_spec (d := .left) (x := x) hrep rfl
      hparent (hcolor ▸ hrb) (show ctx.length + 1 < rounds by omega)
    exact ⟨t', T', heq, hrep', hrb', hlist.trans (toList_plug ctx r)⟩
  | node cl ll xl lr =>
    cases r with
    | nil =>
      have h : Rep t (plug ctx (bin .right c .nil x (.node cl ll xl lr))) := h
      obtain ⟨hrep, hparent, hcolor⟩ := h.eraseWithOneChild
      obtain ⟨t', T', heq, hrep', hrb', hlist⟩ := eraseUnlinked_spec (d := .right) (x := x) hrep
        rfl hparent (hcolor ▸ hrb) (show ctx.length + 1 < rounds by omega)
      refine ⟨t', T', heq, hrep', hrb', hlist.trans ?_⟩
      rw [toList_plug, show (nil : RedBlack.Tree P).toList = [] from rfl, List.append_nil]
    | node cr rl xr rr =>
      obtain ⟨rctx, cy, y, yr, hr, hsides⟩ :=
        exists_farthest (t := .node cr rl xr rr) .left (by simp)
      exact erase_two_spec hr h hrb hsides rfl hrounds

end Erase

end Common

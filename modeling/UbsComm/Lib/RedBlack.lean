import Mathlib.Algebra.BigOperators.Fin

/-!
# Red-black trees and their contexts

A tree with a place in it is a *context* and the subtree at the place: the
frames from the place up to the root, each with the side that the place is
on, the key and the other subtree (`plug`). What is said of a whole tree is
said of the two parts – its keys (`toList_plug`), and that it is a red-black
tree (`isRedBlack_plug_iff`), where the context says with which black height
and with which colours it can be filled.

The trees in between, while a tree is repaired after an insertion or a
removal, are contexts with a subtree that is out of order in one respect:
red where the context does not take red (`Overfull`), or one black node too
low (`Deficient`). Left and right are one definition with a side.
-/

namespace RedBlack

open List

/-- The colour of a node. -/
inductive Color where
  | red
  | black
deriving DecidableEq

open Color

/-- The side of a child. -/
inductive Side where
  | left
  | right
deriving DecidableEq

/-- The other side. -/
def Side.other : Side → Side
  | .left => .right
  | .right => .left

@[simp] theorem Side.other_other (d : Side) : d.other.other = d := by cases d <;> rfl

theorem Side.eq_other_of_ne {d e : Side} (h : e ≠ d) : e = d.other := by
  cases d <;> cases e <;> first | rfl | exact absurd rfl h

/-- Trees with colours and keys. -/
inductive Tree (α : Type*) where
  | nil
  | node (color : Color) (left : Tree α) (key : α) (right : Tree α)

variable {α : Type*} {t : Tree α}

namespace Tree

section

variable (d : Side) (c : Color) (s : Tree α)

/-- A node with a subtree on a side and another on the other one. -/
def bin (x : α) (o : Tree α) : Tree α :=
  match d with
  | .left => .node c s x o
  | .right => .node c o x s

theorem bin_other (x : α) (o : Tree α) : bin d.other c s x o = bin d c o x s := by cases d <;> rfl

/-- The key at the root. -/
def root : Tree α → Option α
  | .nil => none
  | .node _ _ x _ => some x

@[simp] theorem root_bin (x : α) (o : Tree α) : (bin d c s x o).root = some x := by cases d <;> rfl

end

/-- The keys in order. -/
def toList : Tree α → List α
  | .nil => []
  | .node _ l x r => l.toList ++ x :: r.toList

/-- The root is red. -/
def isRed : Tree α → Bool
  | .node .red _ _ _ => true
  | _ => false

/-- No red node has a red child. -/
def NoRedRed : Tree α → Prop
  | .nil => True
  | .node c l _ r => (c = .red → l.isRed = false ∧ r.isRed = false) ∧ l.NoRedRed ∧ r.NoRedRed

/-- All paths down from the root have the same number of black nodes. -/
def Bal : Tree α → ℕ → Prop
  | .nil, n => n = 0
  | .node .red l _ r, n => l.Bal n ∧ r.Bal n
  | .node .black _ _ _, 0 => False
  | .node .black l _ r, n + 1 => l.Bal n ∧ r.Bal n

/-- The tree with a black root. -/
def blacken : Tree α → Tree α
  | .nil => .nil
  | .node _ l x r => .node .black l x r

theorem toList_bin_perm (d : Side) (c : Color) (s : Tree α) (x : α) (o : Tree α) :
    (bin d c s x o).toList.Perm (x :: (s.toList ++ o.toList)) := by
  cases d with
  | left => exact perm_middle
  | right => exact perm_middle.trans (perm_append_comm.cons x)

variable {d : Side} {c : Color} {s o : Tree α} {x : α}

theorem mem_toList_bin {z : α} :
    z ∈ (bin d c s x o).toList ↔ z = x ∨ z ∈ s.toList ∨ z ∈ o.toList := by
  rw [(toList_bin_perm d c s x o).mem_iff, mem_cons, mem_append]

theorem forall_mem_bin {p : α → Prop} : (∀ z ∈ (bin d c s x o).toList, p z)
    ↔ p x ∧ (∀ z ∈ s.toList, p z) ∧ ∀ z ∈ o.toList, p z := by
  simp only [mem_toList_bin, or_imp, forall_and, forall_eq]

theorem nodup_bin_iff : (bin d c s x o).toList.Nodup ↔ (x ∉ s.toList ∧ x ∉ o.toList)
      ∧ s.toList.Nodup ∧ o.toList.Nodup ∧ ∀ z ∈ s.toList, z ∉ o.toList := by
  rw [(toList_bin_perm d c s x o).nodup_iff, nodup_cons, mem_append, not_or, nodup_append']
  exact Iff.rfl

theorem toList_bin_congr {c' : Color} {s s' o o' : Tree α} (hs : s.toList = s'.toList)
    (ho : o.toList = o'.toList) : (bin d c s x o).toList = (bin d c' s' x o').toList := by
  cases d <;> simp [bin, toList, hs, ho]

theorem toList_rotate {c₁ c₂ : Color} (c₃ c₄ : Color) {a b e : Tree α} {y : α} :
    (bin d c₁ (bin d c₂ a x b) y e).toList = (bin d c₃ a x (bin d c₄ b y e)).toList := by
  cases d <;> simp [bin, toList]

end Tree

open RedBlack.Tree

/-- **A red-black tree.** -/
structure IsRedBlack (t : Tree α) : Prop where
  root : t.isRed = false
  noRedRed : t.NoRedRed
  bal : ∃ n, t.Bal n

/-! ## Nodes on either side -/

section Bin

variable {d : Side} {c : Color} {s o : Tree α} {x : α} {n : ℕ}

theorem isRed_bin : (bin d c s x o).isRed = decide (c = .red) := by cases d <;> cases c <;> rfl

theorem noRedRed_bin : (bin d c s x o).NoRedRed
    ↔ (c = .red → s.isRed = false ∧ o.isRed = false) ∧ s.NoRedRed ∧ o.NoRedRed := by
  cases d with
  | left => exact Iff.rfl
  | right =>
    show (_ → o.isRed = false ∧ s.isRed = false) ∧ o.NoRedRed ∧ s.NoRedRed ↔ _
    rw [and_comm (a := o.NoRedRed), and_comm (a := o.isRed = false)]

theorem noRedRed_bin_black : (bin d .black s x o).NoRedRed ↔ s.NoRedRed ∧ o.NoRedRed := by
  rw [noRedRed_bin]
  exact and_iff_right noConfusion

theorem bal_bin_red : (bin d .red s x o).Bal n ↔ s.Bal n ∧ o.Bal n := by
  cases d with
  | left => exact Iff.rfl
  | right => exact and_comm

theorem bal_bin_black : (bin d .black s x o).Bal (n + 1) ↔ s.Bal n ∧ o.Bal n := by
  cases d with
  | left => exact Iff.rfl
  | right => exact and_comm

theorem exists_of_bal_bin_black (h : (bin d .black s x o).Bal n) :
    ∃ m, n = m + 1 ∧ s.Bal m ∧ o.Bal m := by
  cases n with
  | zero => cases d <;> exact h.elim
  | succ m => exact ⟨m, rfl, bal_bin_black.mp h⟩

theorem exists_bin_node (d : Side) (c : Color) (l : Tree α) (x : α) (r : Tree α) :
    ∃ s o, .node c l x r = bin d c s x o := by
  cases d with
  | left => exact ⟨l, r, rfl⟩
  | right => exact ⟨r, l, rfl⟩

theorem exists_bin (d : Side) {t : Tree α} (h : t ≠ .nil) : ∃ c s x o, t = bin d c s x o := by
  cases t with
  | nil => exact absurd rfl h
  | node c l x r =>
    obtain ⟨s, o, heq⟩ := exists_bin_node d c l x r
    exact ⟨c, s, x, o, heq⟩

end Bin

/-! ## Contexts -/

/-- A node with a place for one of its subtrees, on a side. -/
structure Frame (α : Type*) where
  side : Side
  color : Color
  key : α
  sibling : Tree α

/-- A subtree in a frame. -/
def Frame.attach (f : Frame α) (t : Tree α) : Tree α := bin f.side f.color t f.key f.sibling

/-- The tree that is made of a context, from the place up, and what is at the
place. -/
def plug : List (Frame α) → Tree α → Tree α
  | [], t => t
  | f :: ctx, t => plug ctx (f.attach t)

theorem plug_other (d : Side) (c : Color) (s : Tree α) (x : α) (o : Tree α) (ctx : List (Frame α)) :
    plug (⟨d.other, c, x, s⟩ :: ctx) o = plug ctx (bin d c s x o) :=
  congrArg (plug ctx) (bin_other d c o x s)

/-- The keys before the place. -/
def before : List (Frame α) → List α
  | [] => []
  | f :: ctx => before ctx ++ match f.side with
    | .left => []
    | .right => f.sibling.toList ++ [f.key]

/-- The keys after the place. -/
def after : List (Frame α) → List α
  | [] => []
  | f :: ctx => (match f.side with
    | .left => f.key :: f.sibling.toList
    | .right => []) ++ after ctx

theorem toList_plug (ctx : List (Frame α)) (t : Tree α) :
    (plug ctx t).toList = before ctx ++ (t.toList ++ after ctx) := by
  induction ctx generalizing t with
  | nil => exact (append_nil _).symm
  | cons f ctx ih =>
    rw [plug, ih]
    obtain ⟨d, c, x, s⟩ := f
    cases d with
    | left | right => simp [before, after, Frame.attach, bin, toList]

theorem toList_plug_node (ctx : List (Frame α)) (c : Color) (l : Tree α) (x : α) (r : Tree α) :
    (plug ctx (.node c l x r)).toList =
      (before ctx ++ l.toList) ++ x :: (r.toList ++ after ctx) := by
  rw [toList_plug, toList]
  simp only [append_assoc, cons_append]

theorem toList_plug_congr {t' : Tree α} (h : t.toList = t'.toList) (ctx : List (Frame α)) :
    (plug ctx t).toList = (plug ctx t').toList := by
  rw [toList_plug, toList_plug, h]

/-- The keys around the place. -/
def ctxKeys (ctx : List (Frame α)) : List α := before ctx ++ after ctx

theorem ctxKeys_cons_perm (f : Frame α) (ctx : List (Frame α)) :
    (ctxKeys (f :: ctx)).Perm (f.key :: (f.sibling.toList ++ ctxKeys ctx)) := by
  obtain ⟨d, c, x, s⟩ := f
  cases d with
  | left =>
    simp only [ctxKeys, before, after, append_nil, cons_append]
    refine perm_middle.trans (List.Perm.cons x ?_)
    rw [← append_assoc, ← append_assoc]
    exact perm_append_comm.append_right _
  | right =>
    simp only [ctxKeys, before, append_assoc]
    rw [← append_assoc]
    refine perm_middle.trans (List.Perm.cons x ?_)
    rw [← append_assoc]
    exact perm_append_comm.append_right _

variable {ctx : List (Frame α)} {x : α} {f : Frame α}

theorem mem_ctxKeys_cons {z : α} :
    z ∈ ctxKeys (f :: ctx) ↔ z = f.key ∨ z ∈ f.sibling.toList ∨ z ∈ ctxKeys ctx := by
  rw [(ctxKeys_cons_perm f ctx).mem_iff, mem_cons, mem_append]

theorem toList_plug_perm (ctx : List (Frame α)) (t : Tree α) :
    (plug ctx t).toList.Perm (t.toList ++ ctxKeys ctx) := by
  rw [toList_plug, ctxKeys, ← append_assoc, ← append_assoc]
  exact perm_append_comm.append_right _

theorem nodup_plug_iff : (plug ctx t).toList.Nodup
      ↔ t.toList.Nodup ∧ (ctxKeys ctx).Nodup ∧ ∀ z ∈ t.toList, z ∉ ctxKeys ctx := by
  rw [(toList_plug_perm ctx t).nodup_iff, nodup_append']
  exact Iff.rfl

theorem length_le_ctxKeys (ctx : List (Frame α)) : ctx.length ≤ (ctxKeys ctx).length := by
  induction ctx with
  | nil => exact Nat.le_refl _
  | cons f ctx ih =>
    rw [(ctxKeys_cons_perm f ctx).length_eq, length_cons, length_cons, length_append]
    omega

theorem length_toList_plug (ctx : List (Frame α)) (t : Tree α) :
    (plug ctx t).toList.length = t.toList.length + (ctxKeys ctx).length := by
  rw [(toList_plug_perm ctx t).length_eq, length_append]

theorem plug_append (ctx ctx' : List (Frame α)) (t : Tree α) :
    plug (ctx ++ ctx') t = plug ctx' (plug ctx t) := by
  induction ctx generalizing t with
  | nil => rfl
  | cons f ctx ih => exact ih _

/-- A place for each key of a tree. -/
theorem exists_plug (h : x ∈ t.toList) : ∃ ctx c l r, t = plug ctx (.node c l x r) := by
  induction t with
  | nil => cases h
  | node c l y r ihl ihr =>
    rcases mem_append.mp h with hl | h
    · obtain ⟨ctx, c', l', r', rfl⟩ := ihl hl
      exact ⟨ctx ++ [⟨.left, c, y, r⟩], c', l', r', by rw [plug_append]; rfl⟩
    · rcases mem_cons.mp h with rfl | hr
      · exact ⟨[], c, l, r, rfl⟩
      · obtain ⟨ctx, c', l', r', rfl⟩ := ihr hr
        exact ⟨ctx ++ [⟨.right, c, y, l⟩], c', l', r', by rw [plug_append]; rfl⟩

/-- The last key of a tree on a side, with its place. -/
theorem exists_farthest (d : Side) (h : t ≠ .nil) :
    ∃ ctx c x o, t = plug ctx (bin d c .nil x o) ∧ ∀ f ∈ ctx, f.side = d := by
  induction t with
  | nil => exact absurd rfl h
  | node c l x r ihl ihr =>
    obtain ⟨s, o, heq, ih⟩ : ∃ s o, .node c l x r = bin d c s x o ∧ (s ≠ .nil →
        ∃ ctx c x o, s = plug ctx (bin d c .nil x o) ∧ ∀ f ∈ ctx, f.side = d) := by
      cases d with
      | left => exact ⟨l, r, rfl, ihl⟩
      | right => exact ⟨r, l, rfl, ihr⟩
    rw [heq]
    by_cases hs : s = .nil
    · exact ⟨[], c, x, o, by rw [hs]; rfl, nofun⟩
    · obtain ⟨ctx, c', y, o', rfl, hctx⟩ := ih hs
      exact ⟨ctx ++ [⟨d, c, x, o⟩], c', y, o', by rw [plug_append]; rfl,
        forall_mem_append.mpr ⟨hctx, forall_mem_singleton.mpr rfl⟩⟩

theorem before_eq_nil (h : ∀ f ∈ ctx, f.side = .left) : before ctx = [] := by
  induction ctx with
  | nil => rfl
  | cons f ctx ih =>
    rw [before, h f mem_cons_self, ih fun g hg => h g (mem_cons_of_mem f hg)]
    rfl

theorem toList_plug_first (h : ∀ f ∈ ctx, f.side = .left) (c : Color) (x : α) (o : Tree α) :
    (plug ctx (bin .left c .nil x o)).toList = x :: (plug ctx o).toList := by
  rw [toList_plug, toList_plug, before_eq_nil h]
  rfl

/-- The place may be filled with a red node. -/
def TakesRed : List (Frame α) → Prop
  | [] => False
  | f :: _ => f.color = .black

/-- A context that leaves no red node with a red child, if it is filled with
a black one. -/
def CtxNoRedRed : List (Frame α) → Prop
  | [] => True
  | f :: ctx => f.sibling.NoRedRed ∧ (f.color = .red → f.sibling.isRed = false ∧ TakesRed ctx)
    ∧ CtxNoRedRed ctx

/-- A context for subtrees of a black height. -/
def CtxBal : List (Frame α) → ℕ → Prop
  | [], _ => True
  | f :: ctx, n => f.sibling.Bal n ∧ CtxBal ctx (match f.color with
    | .red => n
    | .black => n + 1)

/-- **A red-black tree with a place in it.** -/
theorem isRedBlack_plug_iff : IsRedBlack (plug ctx t) ↔ t.NoRedRed ∧ (t.isRed = true → TakesRed ctx)
      ∧ CtxNoRedRed ctx ∧ ∃ n, t.Bal n ∧ CtxBal ctx n := by
  induction ctx generalizing t with
  | nil =>
    constructor
    · rintro ⟨hroot, hred, n, hbal⟩
      exact ⟨hred, fun h => absurd (hroot.symm.trans h) Bool.false_ne_true, trivial, n, hbal,
        trivial⟩
    · rintro ⟨hred, hroot, -, n, hbal, -⟩
      exact ⟨Bool.eq_false_iff.mpr hroot, hred, n, hbal⟩
  | cons f ctx ih =>
    rw [plug, ih]
    obtain ⟨d, c, x, s⟩ := f
    have hbal : (∃ n, ((Frame.mk d c x s).attach t).Bal n ∧ CtxBal ctx n)
        ↔ ∃ n, t.Bal n ∧ CtxBal (⟨d, c, x, s⟩ :: ctx) n := by
      cases c with
      | red =>
        refine exists_congr fun n => ?_
        rw [Frame.attach, bal_bin_red, and_assoc]
        exact Iff.rfl
      | black =>
        constructor
        · rintro ⟨n, hn, hctx⟩
          obtain ⟨m, rfl, ht, hs⟩ := exists_of_bal_bin_black hn
          exact ⟨m, ht, hs, hctx⟩
        · rintro ⟨n, ht, hs, hctx⟩
          exact ⟨n + 1, bal_bin_black.mpr ⟨ht, hs⟩, hctx⟩
    rw [hbal, Frame.attach, noRedRed_bin, isRed_bin]
    rw [CtxNoRedRed, TakesRed, decide_eq_true_eq]
    cases c with
    | red =>
      simp only [forall_const, reduceCtorEq, imp_false, Bool.not_eq_true]
      tauto
    | black =>
      simp only [reduceCtorEq, false_implies]
      tauto

/-- Colours and heights are the same with another key at a node. -/
theorem IsRedBlack.of_key {c : Color} {l r : Tree α} (h : IsRedBlack (plug ctx (.node c l x r)))
    (y : α) : IsRedBlack (plug ctx (.node c l y r)) := by
  obtain ⟨hred, htakes, hctx, n, hbal, hctxBal⟩ := isRedBlack_plug_iff.mp h
  cases c with
  | red => exact isRedBlack_plug_iff.mpr ⟨hred, htakes, hctx, n, hbal, hctxBal⟩
  | black =>
    obtain ⟨m, rfl, hbal⟩ := exists_of_bal_bin_black (d := .left) hbal
    exact isRedBlack_plug_iff.mpr ⟨hred, htakes, hctx, m + 1, hbal, hctxBal⟩

theorem isRed_blacken (t : Tree α) : t.blacken.isRed = false := by cases t <;> rfl

theorem blacken_eq (h : t.isRed = false) : t.blacken = t := by
  cases t with
  | nil => rfl
  | node c l x r =>
    cases c with
    | red => cases h
    | black => rfl

theorem toList_blacken (t : Tree α) : t.blacken.toList = t.toList := by cases t <;> rfl

theorem blacken_bin (d : Side) (c : Color) (s : Tree α) (x : α) (o : Tree α) :
    (bin d c s x o).blacken = bin d .black s x o := by cases d <;> rfl

theorem noRedRed_blacken (h : t.NoRedRed) : t.blacken.NoRedRed := by
  cases t with
  | nil => exact h
  | node c l x r => exact ⟨fun hc => absurd hc noConfusion, h.2⟩

theorem bal_blacken {n : ℕ} (hred : t.isRed = true) (h : t.Bal n) : t.blacken.Bal (n + 1) := by
  cases t with
  | nil => cases hred
  | node c l x r =>
    cases c with
    | red => exact h
    | black => cases hred

theorem exists_bin_of_isRed (d : Side) (h : t.isRed = true) : ∃ s x o, t = bin d .red s x o := by
  obtain ⟨c, s, x, o, rfl⟩ := exists_bin d (t := t) (by rintro rfl; exact Bool.false_ne_true h)
  rw [isRed_bin, decide_eq_true_eq] at h
  exact ⟨s, x, o, by rw [h]⟩

/-! ## A red subtree too many -/

/-- A red subtree in a context that may not take it. -/
structure Overfull (ctx : List (Frame α)) (t : Tree α) : Prop where
  isRed : t.isRed = true
  noRedRed : t.NoRedRed
  frames : CtxNoRedRed ctx
  bal : ∃ n, t.Bal n ∧ CtxBal ctx n

namespace Overfull

variable {ctx : List (Frame α)} {t : Tree α}

theorem root (h : Overfull [] t) : IsRedBlack t.blacken := by
  obtain ⟨n, hbal, -⟩ := h.bal
  exact ⟨isRed_blacken t, noRedRed_blacken h.noRedRed, n + 1, bal_blacken h.isRed hbal⟩

/-- The parent is red: there is a grandparent, and it is black. -/
theorem exists_grandparent (h : Overfull (f :: ctx) t) (hf : f.color = .red) :
    ∃ g ctx', ctx = g :: ctx' ∧ g.color = .black := by
  have htakes := (h.frames.2.1 hf).2
  cases ctx with
  | nil => cases htakes
  | cons g ctx' => exact ⟨g, ctx', rfl, htakes⟩

variable {d e : Side} {p g : α} {s u : Tree α}

section

variable (h : Overfull (⟨e, .red, p, s⟩ :: ⟨d, .black, g, u⟩ :: ctx) t)
include h

theorem split :
    ∃ n, (t.Bal n ∧ s.Bal n ∧ u.Bal n ∧ CtxBal ctx (n + 1)) ∧ s.isRed = false ∧ s.NoRedRed
      ∧ u.NoRedRed ∧ CtxNoRedRed ctx := by
  obtain ⟨n, hbal, hs, hu, hctx⟩ := h.bal
  obtain ⟨hsred, hsblack, hured, -, hrest⟩ := h.frames
  exact ⟨n, ⟨hbal, hs, hu, hctx⟩, (hsblack rfl).1, hsred, hured, hrest⟩

/-- The uncle is red as well: the grandparent takes the red of both. -/
theorem recolor (hu : u.isRed = true) :
    Overfull ctx (bin d .red (bin e .black t p s) g u.blacken) := by
  obtain ⟨n, ⟨htn, hsn, hun, hctx⟩, hsblack, hs, hu', hrest⟩ := h.split
  refine ⟨isRed_bin, noRedRed_bin.mpr ⟨fun _ => ⟨isRed_bin, isRed_blacken u⟩,
    noRedRed_bin_black.mpr ⟨h.noRedRed, hs⟩,
    noRedRed_blacken hu'⟩, hrest, n + 1, bal_bin_red.mpr ⟨?_, bal_blacken hu hun⟩, hctx⟩
  exact bal_bin_black.mpr ⟨htn, hsn⟩

end

/-- The uncle is black, and the subtree is on the outer side. -/
theorem outer (h : Overfull (⟨d, .red, p, s⟩ :: ⟨d, .black, g, u⟩ :: ctx) t)
    (hu : u.isRed = false) : IsRedBlack (plug ctx (bin d .black t p (bin d .red s g u))) := by
  obtain ⟨n, ⟨htn, hsn, hun, hctx⟩, hsblack, hs, hu', hrest⟩ := h.split
  refine isRedBlack_plug_iff.mpr
    ⟨noRedRed_bin_black.mpr ⟨h.noRedRed, noRedRed_bin.mpr ⟨fun _ => ⟨hsblack, hu⟩, hs, hu'⟩⟩,
      fun hred => ?_, hrest,
    n + 1, bal_bin_black.mpr ⟨htn, bal_bin_red.mpr ⟨hsn, hun⟩⟩, hctx⟩
  exact absurd (hred.symm.trans isRed_bin) (by decide)

/-- The uncle is black, and the subtree is on the inner side. -/
theorem inner {x : α} {a b : Tree α}
    (h : Overfull (⟨d.other, .red, p, s⟩ :: ⟨d, .black, g, u⟩ :: ctx) (bin d .red a x b))
    (hu : u.isRed = false) :
    IsRedBlack (plug ctx (bin d .black (bin d .red s p a) x (bin d .red b g u))) := by
  obtain ⟨n, ⟨htn, hsn, hun, hctx⟩, hsblack, hs, hu', hrest⟩ := h.split
  obtain ⟨hblack, ha, hb⟩ := noRedRed_bin.mp h.noRedRed
  obtain ⟨han, hbn⟩ := bal_bin_red.mp htn
  refine isRedBlack_plug_iff.mpr
    ⟨noRedRed_bin_black.mpr ⟨noRedRed_bin.mpr ⟨fun _ => ⟨hsblack, (hblack rfl).1⟩, hs, ha⟩,
    noRedRed_bin.mpr ⟨fun _ => ⟨(hblack rfl).2, hu⟩, hb, hu'⟩⟩, fun hred => ?_, hrest,
    n + 1, bal_bin_black.mpr ⟨bal_bin_red.mpr ⟨hsn, han⟩, bal_bin_red.mpr ⟨hbn, hun⟩⟩, hctx⟩
  exact absurd (hred.symm.trans isRed_bin) (by decide)

end Overfull

/-! ## A black node too few -/

/-- A subtree that is one black node too low for its context; it may be red,
and then have red children. -/
structure Deficient (ctx : List (Frame α)) (t : Tree α) : Prop where
  noRedRed : t.blacken.NoRedRed
  frames : CtxNoRedRed ctx
  bal : ∃ n, t.Bal n ∧ CtxBal ctx (n + 1)

/-- **A node with at most one child gives way to it**: if the node was red, the
tree is in order, and if it was black, the place is one black node too low. -/
theorem IsRedBlack.unlink {d : Side} {c : Color} {o : Tree α}
    (h : IsRedBlack (plug ctx (bin d c .nil x o))) :
    (c = .red → IsRedBlack (plug ctx o)) ∧ (c = .black → Deficient ctx o) := by
  obtain ⟨hred, -, hctx, n, hbal, hctxBal⟩ := isRedBlack_plug_iff.mp h
  obtain ⟨hc, -, ho⟩ := noRedRed_bin.mp hred
  constructor
  · rintro rfl
    refine isRedBlack_plug_iff.mpr ⟨ho, fun ho' => ?_, hctx, n, (bal_bin_red.mp hbal).2, hctxBal⟩
    exact absurd ((hc rfl).2.symm.trans ho') Bool.false_ne_true
  · rintro rfl
    obtain ⟨m, rfl, -, hm⟩ := exists_of_bal_bin_black hbal
    exact ⟨noRedRed_blacken ho, hctx, m, hm, hctxBal⟩

namespace Deficient

variable {ctx : List (Frame α)} {t : Tree α}

theorem of_isRed (h : Deficient ctx t) (hred : t.isRed = true) :
    IsRedBlack (plug ctx t.blacken) := by
  obtain ⟨n, hbal, hctx⟩ := h.bal
  refine isRedBlack_plug_iff.mpr ⟨h.noRedRed, fun hred' => ?_, h.frames, n + 1,
    bal_blacken hred hbal, hctx⟩
  exact absurd (hred'.symm.trans (isRed_blacken t)) (by decide)

theorem root (h : Deficient [] t) : IsRedBlack t.blacken := by
  cases hred : t.isRed with
  | true => exact h.of_isRed hred
  | false =>
    obtain ⟨n, hbal, -⟩ := h.bal
    exact ⟨isRed_blacken t, h.noRedRed, n, by rw [blacken_eq hred]; exact hbal⟩

variable {d : Side} {c : Color} {p w : α} {s a b : Tree α}

theorem sibling_ne_nil (h : Deficient (⟨d, c, p, s⟩ :: ctx) t) : s ≠ .nil := by
  obtain ⟨n, -, hs, -⟩ := h.bal
  rintro rfl
  exact Nat.succ_ne_zero n hs

/-- The sibling is red: it is rotated above the parent, and the new sibling is
black. -/
theorem siblingRed (h : Deficient (⟨d, c, p, bin d .red a w b⟩ :: ctx) t) :
    Deficient (⟨d, .red, p, a⟩ :: ⟨d, .black, w, b⟩ :: ctx) t ∧ a.isRed = false := by
  obtain ⟨hs, hsblack, hrest⟩ := h.frames
  obtain ⟨n, hn, hsn, hctx⟩ := h.bal
  obtain ⟨hblack, ha, hb⟩ := noRedRed_bin.mp hs
  obtain ⟨han, hbn⟩ := bal_bin_red.mp hsn
  have hared := (hblack rfl).1
  cases c with
  | red => exact absurd ((hsblack rfl).1.symm.trans isRed_bin) (by decide)
  | black =>
    refine ⟨⟨h.noRedRed, ⟨ha, fun _ => ⟨hared, rfl⟩, hb, fun hc => absurd hc noConfusion,
      hrest⟩, n, hn, han, hbn, hctx⟩, hared⟩

/-- The sibling and its children are black: the sibling becomes red, and the
parent has one black node too few. -/
theorem recolor (h : Deficient (⟨d, c, p, bin d .black a w b⟩ :: ctx) t)
    (ht : t.isRed = false) (ha : a.isRed = false) (hb : b.isRed = false) :
    Deficient ctx (bin d c t p (bin d .red a w b)) := by
  obtain ⟨hs, -, hrest⟩ := h.frames
  obtain ⟨n, hn, hsn, hctx⟩ := h.bal
  obtain ⟨-, ha', hb'⟩ := noRedRed_bin.mp hs
  obtain ⟨han, hbn⟩ := bal_bin_black.mp hsn
  have ht' := h.noRedRed
  rw [blacken_eq ht] at ht'
  refine ⟨?_, hrest, ?_⟩
  · rw [blacken_bin]
    exact noRedRed_bin_black.mpr ⟨ht', noRedRed_bin.mpr ⟨fun _ => ⟨ha, hb⟩, ha', hb'⟩⟩
  · cases c with
    | red => exact ⟨n, bal_bin_red.mpr ⟨hn, bal_bin_red.mpr ⟨han, hbn⟩⟩, hctx⟩
    | black => exact ⟨n + 1, bal_bin_black.mpr ⟨hn, bal_bin_red.mpr ⟨han, hbn⟩⟩, hctx⟩

/-- Only the nearer child of the sibling is red: it becomes the sibling, with
a red child on the farther side. -/
theorem near {x : α} {e : Tree α}
    (h : Deficient (⟨d, c, p, bin d .black (bin d .red a x e) w b⟩ :: ctx) t)
    (hb : b.isRed = false) :
    Deficient (⟨d, c, p, bin d .black a x (bin d .red e w b)⟩ :: ctx) t := by
  obtain ⟨hs, hsblack, hrest⟩ := h.frames
  obtain ⟨n, hn, hsn, hctx⟩ := h.bal
  obtain ⟨-, hx, hb'⟩ := noRedRed_bin.mp hs
  obtain ⟨hxblack, ha', he'⟩ := noRedRed_bin.mp hx
  obtain ⟨hxn, hbn⟩ := bal_bin_black.mp hsn
  obtain ⟨han, hen⟩ := bal_bin_red.mp hxn
  refine ⟨h.noRedRed, ⟨noRedRed_bin_black.mpr ⟨ha',
    noRedRed_bin.mpr ⟨fun _ => ⟨(hxblack rfl).2, hb⟩, he', hb'⟩⟩,
    fun hc => ⟨isRed_bin, (hsblack hc).2⟩, hrest⟩, n, hn,
    bal_bin_black.mpr ⟨han, bal_bin_red.mpr ⟨hen, hbn⟩⟩, hctx⟩

/-- The farther child of the sibling is red: the sibling is rotated above the
parent, and takes its colour. -/
theorem far (h : Deficient (⟨d, c, p, bin d .black a w b⟩ :: ctx) t) (ht : t.isRed = false)
    (hb : b.isRed = true) : IsRedBlack (plug ctx (bin d c (bin d .black t p a) w b.blacken)) := by
  obtain ⟨hs, hsblack, hrest⟩ := h.frames
  obtain ⟨n, hn, hsn, hctx⟩ := h.bal
  obtain ⟨-, ha', hb'⟩ := noRedRed_bin.mp hs
  obtain ⟨han, hbn⟩ := bal_bin_black.mp hsn
  have ht' := h.noRedRed
  rw [blacken_eq ht] at ht'
  have hleft : (bin d .black t p a).NoRedRed := noRedRed_bin_black.mpr ⟨ht', ha'⟩
  have hleftn : (bin d .black t p a).Bal (n + 1) := bal_bin_black.mpr ⟨hn, han⟩
  refine isRedBlack_plug_iff.mpr ⟨noRedRed_bin.mpr ⟨fun _ => ⟨isRed_bin, isRed_blacken b⟩,
    hleft, noRedRed_blacken hb'⟩, fun hred => ?_, hrest, ?_⟩
  · rw [isRed_bin, decide_eq_true_eq] at hred
    exact (hsblack hred).2
  · cases c with
    | red => exact ⟨n + 1, bal_bin_red.mpr ⟨hleftn, bal_blacken hb hbn⟩, hctx⟩
    | black => exact ⟨n + 2, bal_bin_black.mpr ⟨hleftn, bal_blacken hb hbn⟩, hctx⟩

end Deficient

end RedBlack

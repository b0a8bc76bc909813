import UbsComm.Lib.Execution
import UbsComm.Lib.RedBlack

/-!
# The red-black tree of the allocator

The tree is intrusive: a node is a place in memory that its owner provides,
with the pointers to its children, and the pointer to its parent and its
colour in one word. The caller looks for the place of a new node and links it
(`link`); the tree repairs its balance. Nodes are removed and replaced where
they are.

What the functions do is a matter of pointers, so that is what is modelled: a
tree is what the nodes have in their words, for any type of places. A null
pointer that is followed ends the computation without a result, and so does a
loop that runs longer than the number that it is given. The functions that
the source has twice, for the left and for the right, are one function of a
side here, and each of the two is that function at its side.
-/

namespace Common

open RedBlack

/-- `NetRbColor` -/
abbrev NetRbColor := Color

/-- `NetRbNode` -/
structure NetRbNode (P : Type*) where
  parent : Option P
  color : NetRbColor
  left : Option P
  right : Option P

namespace NetRbNode

variable {P : Type*}

/-- The child on a side. -/
def child (n : NetRbNode P) : Side → Option P
  | .left => n.left
  | .right => n.right

/-- The child on a side is set. -/
def setChild (n : NetRbNode P) (d : Side) (x : Option P) : NetRbNode P :=
  match d with
  | .left => { n with left := x }
  | .right => { n with right := x }

end NetRbNode

/-- A tree: the words of the nodes, and the pointer to the root. -/
structure NetRbTree (P : Type*) where
  nodes : P → NetRbNode P
  ref : Option P

namespace NetRbTree

variable {P : Type*} [DecidableEq P] (t : NetRbTree P)

/-- A node is written. -/
def setNode (x : P) (n : NetRbNode P) : NetRbTree P :=
  { t with nodes := Function.update t.nodes x n }

/-- `SetParent` -/
def setParent (x : P) (parent : Option P) : NetRbTree P := t.setNode x { t.nodes x with parent }

/-- `SetColor`, `SetRed` -/
def setColor (x : P) (color : NetRbColor) : NetRbTree P := t.setNode x { t.nodes x with color }

/-- A pointer down is set. -/
def setChild (x : P) (d : Side) (y : Option P) : NetRbTree P :=
  t.setNode x ((t.nodes x).setChild d y)

/-- `if (x) { x->SetParent(parent); }`. -/
def setParentOf (x : Option P) (parent : Option P) : NetRbTree P :=
  match x with
  | none => t
  | some x => t.setParent x parent

/-- `if (node) { node->SetBlack(); }`. -/
def setBlackOf (node : Option P) : NetRbTree P :=
  match node with
  | none => t
  | some node => t.setColor node .black

/-- The pointer to a node, in its parent or at the root, is made to point to
another one. The side is the one that is compared. -/
def relink (d : Side) (parent : Option P) (old : P) (new : Option P) : NetRbTree P :=
  match parent with
  | none => { t with ref := new }
  | some parent =>
    if (t.nodes parent).child d = some old then t.setChild parent d new
    else t.setChild parent d.other new

/-- `IsRed` -/
def isRed (x : P) : Bool := (t.nodes x).color = .red

/-- `x && x->IsRed()`. -/
def isRedAt (x : Option P) : Bool :=
  match x with
  | none => false
  | some x => t.isRed x

/-- `Link`: the node becomes a leaf below a parent. -/
def link (node : P) (parent : Option P) (d : Side) : NetRbTree P :=
  let t := t.setNode node ⟨parent, .red, none, none⟩
  match parent with
  | none => { t with ref := some node }
  | some parent => t.setChild parent d (some node)

/-! ## Rotations -/

/-- A rotation to a side: the child on the other side takes the place of the
node. -/
def rotate (d : Side) (node : P) : Option (NetRbTree P) :=
  match (t.nodes node).child d.other with
  | none => none
  | some right =>
    let parent := (t.nodes node).parent
    let inner := (t.nodes right).child d
    let t := (t.setChild node d.other inner).setParentOf inner (some node)
    let t := (t.setChild right d (some node)).setParent right parent
    let t := t.relink d parent node (some right)
    some (t.setParent node (some right))

/-- `RotateLeft` -/
def rotateLeft (node : P) : Option (NetRbTree P) := t.rotate .left node

/-- `RotateRight` -/
def rotateRight (node : P) : Option (NetRbTree P) := t.rotate .right node

/-! ## Insertion -/

/-- The two rotations of `InsertLeft` and `InsertRight`; the node to go on
with is the lower one. -/
def insertRotate (d : Side) (node parent gparent : P) : Option (NetRbTree P × P) :=
  (if (t.nodes parent).child d.other = some node then
      (t.rotate d parent).map fun t => (t, parent, node)
    else some (t, node, parent)).bind fun ⟨t, node, parent⟩ =>
  (((t.setColor parent .black).setColor gparent .red).rotate d.other gparent).map fun t => (t, node)

/-- A red node with a red parent, which is on a side of its own parent. -/
def insertSide (d : Side) (node parent gparent : P) : Option (NetRbTree P × P) :=
  match (t.nodes gparent).child d.other with
  | none => t.insertRotate d node parent gparent
  | some uncle =>
    if t.isRed uncle then
      some (((t.setColor uncle .black).setColor parent .black).setColor gparent .red, gparent)
    else t.insertRotate d node parent gparent

/-- `InsertLeft` -/
def insertLeft (node parent gparent : P) : Option (NetRbTree P × P) :=
  t.insertSide .left node parent gparent

/-- `InsertRight` -/
def insertRight (node parent gparent : P) : Option (NetRbTree P × P) :=
  t.insertSide .right node parent gparent

/-- The loop of `Insert`, for so many rounds. -/
def insertLoop : ℕ → NetRbTree P → P → Option (NetRbTree P)
  | 0, _, _ => none
  | rounds + 1, t, node =>
    match (t.nodes node).parent with
    | none => some t
    | some parent =>
      if ¬t.isRed parent then some t
      else
        match (t.nodes parent).parent with
        | none => none
        | some gparent =>
          (if (t.nodes gparent).child .left = some parent then
              t.insertLeft node parent gparent
            else t.insertRight node parent gparent).bind fun ⟨t, node⟩ =>
          insertLoop rounds t node

/-- `Insert` -/
def insert (rounds : ℕ) (node : P) : Option (NetRbTree P) :=
  (insertLoop rounds t node).map fun t => t.setBlackOf t.ref

/-! ## Removal -/

/-- What `EraseColorLeft` and `EraseColorRight` leave: the node, its parent,
and whether the repair is done. -/
structure EraseColored (P : Type*) where
  tree : NetRbTree P
  node : Option P
  parent : Option P
  done : Bool

section

variable (d : Side) (node : Option P) (parent other : P)

/-- The sibling is black, and its child on the farther side is red, if there
is one. -/
def eraseFar : Option (EraseColored P) :=
  let t := (t.setColor other (t.nodes parent).color).setColor parent .black
  match (t.nodes other).child d.other with
  | none => some ⟨t, node, some parent, false⟩
  | some far => ((t.setColor far .black).rotate d parent).map fun t => ⟨t, t.ref, some parent, true⟩

/-- The sibling is black and has a red child. -/
def eraseRotate : Option (EraseColored P) :=
  if t.isRedAt ((t.nodes other).child d.other) then t.eraseFar d node parent other
  else
    ((t.nodes other).child d).bind fun near =>
    (((t.setColor near .black).setColor other .red).rotate d.other other).bind fun t =>
    ((t.nodes parent).child d.other).bind fun other => t.eraseFar d node parent other

/-- The sibling is black. -/
def eraseOther : Option (EraseColored P) :=
  if ¬t.isRedAt (t.nodes other).left ∧ ¬t.isRedAt (t.nodes other).right then
    let t := t.setColor other .red
    some ⟨t, some parent, (t.nodes parent).parent, false⟩
  else t.eraseRotate d node parent other

end

/-- A node, on a side of its parent, that is one black node too low. -/
def eraseColorSide (d : Side) (node : Option P) (parent : P) : Option (EraseColored P) :=
  match (t.nodes parent).child d.other with
  | none => some ⟨t, node, some parent, false⟩
  | some other =>
    if t.isRed other then
      (((t.setColor other .black).setColor parent .red).rotate d parent).bind fun t =>
      ((t.nodes parent).child d.other).bind fun other => t.eraseOther d node parent other
    else t.eraseOther d node parent other

/-- `EraseColorLeft` -/
def eraseColorLeft (node : Option P) (parent : P) : Option (EraseColored P) :=
  t.eraseColorSide .left node parent

/-- `EraseColorRight` -/
def eraseColorRight (node : Option P) (parent : P) : Option (EraseColored P) :=
  t.eraseColorSide .right node parent

/-- `EraseColor`, with the rounds of its loop. -/
def eraseColor : ℕ → NetRbTree P → Option P → Option P → Option (NetRbTree P)
  | 0, _, _, _ => none
  | rounds + 1, t, node, parent =>
    if ¬t.isRedAt node ∧ node ≠ t.ref then
      match parent with
      | none => some t
      | some parent =>
        (if (t.nodes parent).child .left = node then t.eraseColorLeft node parent
          else t.eraseColorRight node parent).bind fun r =>
        if r.done then some (r.tree.setBlackOf r.node)
        else eraseColor rounds r.tree r.node r.parent
    else some (t.setBlackOf node)

/-- The last node on a side from a node on, in so many rounds. -/
def farthest (d : Side) : ℕ → P → Option P
  | 0, _ => none
  | rounds + 1, node =>
    match (t.nodes node).child d with
    | none => some node
    | some child => farthest d rounds child

/-- What the removal of a node leaves to repair: the child that is in its
place, the parent of the place, and the colour that is gone. -/
structure EraseUnlinked (P : Type*) where
  tree : NetRbTree P
  child : Option P
  parent : Option P
  color : NetRbColor

/-- The next node lets its right child take its own place, and takes the right
child of the old node. -/
def takeRight (old node parent : P) : NetRbTree P :=
  let child := (t.nodes node).right
  let t := (t.setParentOf child (some parent)).setChild parent .left child
  let t := t.setChild node .right (t.nodes old).right
  t.setParentOf (t.nodes old).right (some node)

/-- The next node takes the parent, the colour and the left child of the old
node. -/
def takeLeft (old node : P) : NetRbTree P :=
  let t := t.setNode node
    { t.nodes node with parent := (t.nodes old).parent, color := (t.nodes old).color }
  let t := t.setChild node .left (t.nodes old).left
  t.setParentOf (t.nodes old).left (some node)

/-- `EraseWithTwoChildren`: the next node in order takes the place. -/
def eraseWithTwoChildren (rounds : ℕ) (old right : P) : Option (EraseUnlinked P) :=
  (t.farthest .left rounds right).bind fun node =>
  let t := t.relink .left (t.nodes old).parent old (some node)
  let child := (t.nodes node).right
  let color := (t.nodes node).color
  match (t.nodes node).parent with
  | none => none
  | some parent =>
    if parent = old then some ⟨t.takeLeft old node, child, some node, color⟩
    else some ⟨(t.takeRight old node parent).takeLeft old node, child, some parent, color⟩

/-- A node with at most one child: the child takes the place. -/
def eraseWithOneChild (node : P) (child : Option P) : EraseUnlinked P :=
  let parent := (t.nodes node).parent
  let color := (t.nodes node).color
  let t := t.setParentOf child parent
  ⟨t.relink .left parent node child, child, parent, color⟩

/-- `Erase` -/
def erase (rounds : ℕ) (node : P) : Option (NetRbTree P) :=
  (match (t.nodes node).left, (t.nodes node).right with
    | none, right => some (t.eraseWithOneChild node right)
    | some left, none => some (t.eraseWithOneChild node (some left))
    | some _, some right => t.eraseWithTwoChildren rounds node right).bind
    fun r : EraseUnlinked P =>
  if r.color = Color.black then eraseColor rounds r.tree r.child r.parent else some r.tree

/-! ## Replacement -/

/-- `Replace` -/
def replace (victim newNode : P) : NetRbTree P :=
  let t := t.relink .left (t.nodes victim).parent victim (some newNode)
  let t := t.setParentOf (t.nodes victim).left (some newNode)
  let t := t.setParentOf (t.nodes victim).right (some newNode)
  t.setNode newNode (t.nodes victim)

/-! ## Neighbours -/

/-- `Prev`: the node itself, if it has nothing on its left. -/
def prev (rounds : ℕ) (node : P) : Option (Option P) :=
  if (t.nodes node).parent = some node then some none
  else
    match (t.nodes node).left with
    | none => some (some node)
    | some left => (t.farthest .right rounds left).map some

/-- The loop of `Next` up to a node that has the one before on its left. -/
def nextAbove : ℕ → P → Option (Option P)
  | 0, _ => none
  | rounds + 1, node =>
    match (t.nodes node).parent with
    | none => some none
    | some parent =>
      if (t.nodes parent).right = some node then nextAbove rounds parent
      else some (some parent)

/-- `Next` -/
def next (rounds : ℕ) (node : P) : Option (Option P) :=
  if (t.nodes node).parent = some node then some none
  else
    match (t.nodes node).right with
    | some right => (t.farthest .left rounds right).map some
    | none => t.nextAbove rounds node

end NetRbTree

end Common

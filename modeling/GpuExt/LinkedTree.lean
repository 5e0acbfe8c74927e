import Mathlib.Data.List.Nodup
import Mathlib.Data.List.Perm.Basic
import Mathlib.Algebra.Group.Nat.Defs

/-! Binary trees in memory. A node has links to its two children and to its parent, and a
colour; every write goes to one field of one node. What the links stand for is a tree, or a
subtree together with the path from it up to the root. -/
namespace GpuExt.LinkedTree

open Function List

inductive Side where
  | left
  | right
  deriving DecidableEq, Repr

def Side.other : Side → Side
  | left => right
  | right => left

@[simp] theorem Side.other_other (side : Side) : side.other.other = side := by cases side <;> rfl

@[simp] theorem Side.other_ne (side : Side) : side.other ≠ side := by cases side <;> decide

@[simp] theorem Side.ne_other (side : Side) : side ≠ side.other := by cases side <;> decide

theorem Side.eq_or_other (side other : Side) : other = side ∨ other = side.other := by
  cases side <;> cases other <;> decide

/-- What is on the side, an element, and what is on the other side, from left to right. -/
def Side.join {α : Type} (side : Side) (near : List α) (a : α) (far : List α) : List α :=
  match side with
  | left => near ++ a :: far
  | right => far ++ a :: near

theorem Side.join_assoc {α : Type} (side : Side) (xs ys zs : List α) (a b : α) :
    side.join (side.join xs a ys) b zs = side.join xs a (side.join ys b zs) := by
  cases side <;> simp [join]

inductive BinTree (α : Type) where
  | nil
  | node (red : Bool) (left : BinTree α) (value : α) (right : BinTree α)
  deriving DecidableEq, Repr

/-- The links of all nodes, and the pointer to the root. -/
structure Links (α : Type) where
  parent : α → Option α
  child : Side → α → Option α
  isRed : α → Bool
  root : Option α

variable {α : Type} {l m : Links α} {t u near far : BinTree α} {side : Side} {red : Bool} {a b : α}
  {p q : Option α}

namespace BinTree

def top : BinTree α → Option α
  | nil => none
  | node _ _ value _ => some value

def isRed : BinTree α → Bool
  | nil => false
  | node red _ _ _ => red

def inorder : BinTree α → List α
  | nil => []
  | node _ left value right => left.inorder ++ value :: right.inorder

def height : BinTree α → Nat
  | nil => 0
  | node _ left _ right => max left.height right.height + 1

/-- A node seen from one of its sides. -/
def make (side : Side) (red : Bool) (value : α) (near far : BinTree α) : BinTree α :=
  match side with
  | .left => node red near value far
  | .right => node red far value near

theorem make_other (side : Side) (red : Bool) (value : α) (near far : BinTree α) :
    make side.other red value near far = make side red value far near := by
  cases side <;> rfl

theorem exists_make (side : Side) (t : BinTree α) :
    t = nil ∨ ∃ red value near far, t = make side red value near far := by
  cases t with
  | nil => exact .inl rfl
  | node red left value right =>
    cases side with
    | left => exact .inr ⟨red,value,left,right,rfl⟩
    | right => exact .inr ⟨red,value,right,left,rfl⟩

@[simp] theorem top_make : (make side red a near far).top = some a := by cases side <;> rfl

@[simp] theorem isRed_make : (make side red a near far).isRed = red := by cases side <;> rfl

theorem exists_red (side : Side) (red : t.isRed = true) :
    ∃ value near far, t = make side true value near far := by
  obtain rfl | ⟨_,value,near,far,rfl⟩ := exists_make side t
  · cases red
  · rw [isRed_make] at red
    exact ⟨value,near,far,by rw [red]⟩

theorem make_ne_nil : make side red a near far ≠ nil := by
  cases side <;> simp [make]

theorem height_make : (make side red a near far).height = max near.height far.height + 1 := by
  cases side with
  | left => rfl
  | right => exact congrArg _ (Nat.max_comm ..)

theorem top_mem (first : t.top = some a) : a ∈ t.inorder := by
  cases t with
  | nil => cases first
  | node red left value right =>
    cases first
    exact mem_append_right _ (mem_cons_self ..)

@[simp] theorem top_eq_none : t.top = none ↔ t = nil := by
  cases t <;> simp [top]

theorem inorder_make_perm :
    (make side red a near far).inorder.Perm (a :: (near.inorder ++ far.inorder)) := by
  cases side with
  | left => exact perm_middle
  | right => exact perm_middle.trans (perm_append_comm.cons a)

@[simp] theorem mem_inorder_make :
    b ∈ (make side red a near far).inorder ↔ b = a ∨ b ∈ near.inorder ∨ b ∈ far.inorder := by
  rw [inorder_make_perm.mem_iff,mem_cons,mem_append]

theorem inorder_make :
    (make side red a near far).inorder = side.join near.inorder a far.inorder := by
  cases side <;> rfl

end BinTree

/-- One step of a path: a node, the side of it that the path comes from, and the subtree on its
other side. -/
structure Frame (α : Type) where
  side : Side
  red : Bool
  value : α
  sibling : BinTree α

def Frame.fill (f : Frame α) (t : BinTree α) : BinTree α := .make f.side f.red f.value t f.sibling

abbrev Path (α : Type) := List (Frame α)

variable {path up inner : Path α} {f : Frame α}

namespace Path

def top : Path α → Option α
  | [] => none
  | f :: _ => some f.value

def plug : Path α → BinTree α → BinTree α
  | [], t => t
  | f :: up, t => plug up (f.fill t)

def values : Path α → List α
  | [] => []
  | f :: up => f.value :: f.sibling.inorder ++ values up

theorem values_append (inner up : Path α) : values (inner ++ up) = values inner ++ values up := by
  induction inner with
  | nil => rfl
  | cons f inner hypothesis => simp [values,hypothesis]

/-- What comes before the subtree. -/
def before : Path α → List α
  | [] => []
  | ⟨.left,_,_,_⟩ :: up => before up
  | ⟨.right,_,value,sibling⟩ :: up => before up ++ sibling.inorder ++ [value]

def after : Path α → List α
  | [] => []
  | ⟨.left,_,value,sibling⟩ :: up => value :: sibling.inorder ++ after up
  | ⟨.right,_,_,_⟩ :: up => after up

theorem top_mem {path : Path α} (first : path.top = some a) : a ∈ path.values := by
  cases path with
  | nil => cases first
  | cons f up =>
    cases first
    exact mem_cons_self ..

theorem inorder_plug (path : Path α) (t : BinTree α) :
    (plug path t).inorder = before path ++ t.inorder ++ after path := by
  induction path generalizing t with
  | nil => simp [plug,before,after]
  | cons f up hypothesis =>
    obtain ⟨side,red,value,sibling⟩ := f
    rw [plug,hypothesis]
    cases side <;> simp [before,after,Frame.fill,BinTree.make,BinTree.inorder]

theorem before_append (inner up : Path α) : before (inner ++ up) = before up ++ before inner := by
  induction inner with
  | nil => simp [before]
  | cons f inner hypothesis =>
    obtain ⟨side,red,value,sibling⟩ := f
    cases side <;> simp [before,hypothesis]

theorem after_append (inner up : Path α) : after (inner ++ up) = after inner ++ after up := by
  induction inner with
  | nil => simp [after]
  | cons f inner hypothesis =>
    obtain ⟨side,red,value,sibling⟩ := f
    cases side <;> simp [after,hypothesis]

theorem mem_plug (path : Path α) (member : a ∈ t.inorder) : a ∈ (plug path t).inorder := by
  rw [inorder_plug]
  exact mem_append_left _ (mem_append_right _ member)

theorem plug_ne_nil (path : Path α) (here : t ≠ .nil) : plug path t ≠ .nil := by
  induction path generalizing t with
  | nil => exact here
  | cons f up hypothesis => exact hypothesis BinTree.make_ne_nil

theorem plug_append (inner up : Path α) (t : BinTree α) :
    plug (inner ++ up) t = plug up (plug inner t) := by
  induction inner generalizing t with
  | nil => rfl
  | cons f inner hypothesis => exact hypothesis _

end Path

/-- Every node can be brought into focus. -/
theorem exists_plug (member : a ∈ t.inorder) : ∃ (path : Path α) (red : Bool) (left right : BinTree α),
    t = path.plug (.make .left red a left right) ∧
      path.length + (BinTree.make .left red a left right).height ≤ t.height := by
  induction t with
  | nil => cases member
  | node red left value right leftward rightward =>
    rw [BinTree.inorder,mem_append,mem_cons] at member
    rcases member with inLeft | rfl | inRight
    · obtain ⟨path,c,l,r,whole,short⟩ := leftward inLeft
      refine ⟨path ++ [⟨.left,red,value,right⟩],c,l,r,?_,?_⟩
      · rw [Path.plug_append,← whole]
        rfl
      · simp only [length_append,length_singleton,BinTree.height]
        omega
    · exact ⟨[],red,left,right,rfl,Nat.le_of_eq (Nat.zero_add _)⟩
    · obtain ⟨path,c,l,r,whole,short⟩ := rightward inRight
      refine ⟨path ++ [⟨.right,red,value,left⟩],c,l,r,?_,?_⟩
      · rw [Path.plug_append,← whole]
        rfl
      · simp only [length_append,length_singleton,BinTree.height]
        omega

/-! What the links stand for. -/

def Below (l : Links α) : Option α → BinTree α → Prop
  | _, .nil => True
  | parent, .node red left value right =>
    l.parent value = parent ∧ l.isRed value = red ∧ l.child .left value = left.top ∧
      l.child .right value = right.top ∧ Below l (some value) left ∧ Below l (some value) right

/-- The links of a path that expects `hole` at its lower end. -/
def Above (l : Links α) : Option α → Path α → Prop
  | hole, [] => l.root = hole
  | hole, f :: up =>
    l.parent f.value = Path.top up ∧ l.isRed f.value = f.red ∧ l.child f.side f.value = hole ∧
      l.child f.side.other f.value = f.sibling.top ∧ Below l (some f.value) f.sibling ∧
        Above l (some f.value) up

theorem below_make : Below l p (.make side red a near far) ↔
    l.parent a = p ∧ l.isRed a = red ∧ l.child side a = near.top ∧
      l.child side.other a = far.top ∧ Below l (some a) near ∧ Below l (some a) far := by
  cases side with
  | left => exact Iff.rfl
  | right =>
    simp only [BinTree.make,Below]
    tauto

/-- A subtree and the path above it, with no node twice. -/
structure Zip (l : Links α) (path : Path α) (t : BinTree α) : Prop where
  above : Above l t.top path
  below : Below l (Path.top path) t
  distinct : (path.values ++ t.inorder).Nodup

theorem values_fill (f : Frame α) (up : Path α) (t : BinTree α) :
    (Path.values up ++ (f.fill t).inorder).Perm (Path.values (f :: up) ++ t.inorder) := by
  have filled : (f.fill t).inorder.Perm (f.value :: (f.sibling.inorder ++ t.inorder)) :=
    BinTree.inorder_make_perm.trans (perm_append_comm.cons _)
  refine (filled.append_left _).trans (perm_middle.trans ?_)
  simp only [Path.values,cons_append,append_assoc]
  refine List.Perm.cons _ ?_
  rw [← append_assoc,← append_assoc]
  exact perm_append_comm.append_right _

theorem Path.plug_perm (path : Path α) (t : BinTree α) :
    (path.plug t).inorder.Perm (path.values ++ t.inorder) := by
  induction path generalizing t with
  | nil => exact .refl _
  | cons f up hypothesis => exact (hypothesis _).trans (values_fill f up t)

/-- The focus moves along a link. -/
theorem zip_fill : Zip l up (f.fill t) ↔ Zip l (f :: up) t := by
  constructor
  · rintro ⟨above,below,distinct⟩
    obtain ⟨parent,colour,near,far,inside,sibling⟩ := below_make.mp below
    rw [Frame.fill,BinTree.top_make] at above
    exact ⟨⟨parent,colour,near,far,sibling,above⟩,inside,(values_fill f up t).nodup_iff.mp distinct⟩
  · rintro ⟨⟨parent,colour,near,far,sibling,above⟩,below,distinct⟩
    refine ⟨?_,below_make.mpr ⟨parent,colour,near,far,below,sibling⟩,
      (values_fill f up t).nodup_iff.mpr distinct⟩
    rw [Frame.fill,BinTree.top_make]
    exact above

theorem zip_make : Zip l path (.make side red a near far) ↔ Zip l (⟨side,red,a,far⟩ :: path) near :=
  zip_fill (f := ⟨side,red,a,far⟩)

theorem zip_plug (inner : Path α) : Zip l (inner ++ path) t ↔ Zip l path (inner.plug t) := by
  induction inner generalizing t with
  | nil => exact Iff.rfl
  | cons f inner hypothesis => exact zip_fill.symm.trans hypothesis

theorem Zip.plug (zip : Zip l path t) : Zip l [] (path.plug t) := (zip_plug path).mp (by simpa)

/-! What can be read off the links. -/

theorem Zip.nodup (zip : Zip l path t) : t.inorder.Nodup :=
  (nodup_append'.mp zip.distinct).2.1

theorem Zip.outside (zip : Zip l path t) (member : a ∈ t.inorder) : a ∉ path.values := fun other =>
  (nodup_append'.mp zip.distinct).2.2 other member

section

variable (zip : Zip l path (.make side red a near far))
include zip

theorem Zip.parent : l.parent a = path.top :=
  (below_make.mp zip.below).1

theorem Zip.isRed : l.isRed a = red :=
  (below_make.mp zip.below).2.1

theorem Zip.child : l.child side a = near.top :=
  (below_make.mp zip.below).2.2.1

theorem Zip.otherChild : l.child side.other a = far.top :=
  (below_make.mp zip.below).2.2.2.1

end

theorem Zip.parent_top (zip : Zip l path t) (first : t.top = some a) : l.parent a = path.top := by
  obtain rfl | ⟨red,value,near,far,rfl⟩ := BinTree.exists_make .left t
  · cases first
  · cases first
    exact zip.parent

theorem Above.root (above : Above l p (f :: up)) : ∃ b ∈ Path.values (f :: up), l.root = some b := by
  induction up generalizing p f with
  | nil => exact ⟨f.value,mem_cons_self ..,above.2.2.2.2.2⟩
  | cons g up hypothesis =>
    obtain ⟨b,member,root⟩ := hypothesis above.2.2.2.2.2
    exact ⟨b,mem_cons_of_mem _ (mem_append_right _ member),root⟩

/-- Only the topmost node is the root. -/
theorem Zip.root (zip : Zip l (f :: up) t) (member : a ∈ t.inorder) : l.root ≠ some a := by
  obtain ⟨b,above,root⟩ := zip.above.root
  rw [root]
  rintro ⟨⟩
  exact zip.outside member above

/-! Writes. -/

variable [DecidableEq α]

namespace Links

section

variable (l : Links α) (side : Side) (a : α)

def setParent (p : Option α) : Links α :=
  { l with parent := update l.parent a p }

def setChild (c : Option α) : Links α :=
  { l with child := update l.child side (update (l.child side) a c) }

def setRed (red : Bool) : Links α :=
  { l with isRed := update l.isRed a red }

def isRedAt : Option α → Bool
  | none => false
  | some a => l.isRed a

def reparent : Option α → Option α → Links α
  | none, _ => l
  | some a, p => l.setParent a p

/-- Let the link from above to `old`, from its parent or from the root pointer, lead to `new`. -/
def relink (parent : Option α) (old : α) (new : Option α) : Links α :=
  match parent with
  | none => { l with root := new }
  | some p =>
    if some old = l.child side p then l.setChild side p new else l.setChild side.other p new

/-- A rotation towards `side` at `x`; without a child on the other side it runs into NULL. -/
def rotate (x : α) : Option (Links α) := do
  let y ← l.child side.other x
  let inner := l.child side y
  let l := l.setChild side.other x inner
  let l := l.reparent inner (some x)
  let l := l.setParent y (l.parent x)
  let l := l.relink side (l.parent x) x (some y)
  let l := l.setChild side y (some x)
  some (l.setParent x (some y))

end

end Links

section Fields

variable {c : Option α} {s : Side}

@[simp] theorem setParent_child : (l.setParent a p).child = l.child := rfl
@[simp] theorem setParent_isRed : (l.setParent a p).isRed = l.isRed := rfl
@[simp] theorem setParent_root : (l.setParent a p).root = l.root := rfl
@[simp] theorem setChild_parent : (l.setChild side a p).parent = l.parent := rfl
@[simp] theorem setChild_isRed : (l.setChild side a p).isRed = l.isRed := rfl
@[simp] theorem setChild_root : (l.setChild side a p).root = l.root := rfl
@[simp] theorem setRed_parent : (l.setRed a red).parent = l.parent := rfl
@[simp] theorem setRed_child : (l.setRed a red).child = l.child := rfl

@[simp] theorem setParent_self : (l.setParent a p).parent a = p := update_self ..

theorem setParent_of_ne (other : b ≠ a) : (l.setParent a p).parent b = l.parent b :=
  update_of_ne other ..

@[simp] theorem setRed_self : (l.setRed a red).isRed a = red := update_self ..

theorem setRed_of_ne (other : b ≠ a) : (l.setRed a red).isRed b = l.isRed b :=
  update_of_ne other ..

@[simp] theorem setChild_self : (l.setChild side a p).child side a = p := by
  simp [Links.setChild]

@[simp] theorem setChild_side : (l.setChild side a p).child side.other = l.child side.other :=
  update_of_ne side.other_ne ..

@[simp] theorem setChild_other_side : (l.setChild side.other a p).child side = l.child side :=
  update_of_ne side.ne_other ..

theorem setChild_of_ne (other : b ≠ a) : (l.setChild side a p).child s b = l.child s b := by
  rcases eq_or_ne s side with rfl | apart
  · simp [Links.setChild,update_of_ne other]
  · simp [Links.setChild,update_of_ne apart]

@[simp] theorem reparent_child : (l.reparent c p).child = l.child := by cases c <;> rfl
@[simp] theorem reparent_isRed : (l.reparent c p).isRed = l.isRed := by cases c <;> rfl
@[simp] theorem reparent_root : (l.reparent c p).root = l.root := by cases c <;> rfl

theorem reparent_of_ne (other : c ≠ some b) : (l.reparent c p).parent b = l.parent b := by
  cases c with
  | none => rfl
  | some a => exact setParent_of_ne fun same => other (congrArg some same.symm)

@[simp] theorem relink_parent : (l.relink side p a c).parent = l.parent := by
  unfold Links.relink
  split
  · rfl
  · split <;> rfl

@[simp] theorem relink_isRed : (l.relink side p a c).isRed = l.isRed := by
  unfold Links.relink
  split
  · rfl
  · split <;> rfl

theorem relink_of_ne (other : p ≠ some b) : (l.relink side p a c).child s b = l.child s b := by
  cases p with
  | none => rfl
  | some parent =>
    have apart : b ≠ parent := fun same => other (congrArg some same.symm)
    unfold Links.relink
    dsimp only
    split
    · exact setChild_of_ne apart
    · exact setChild_of_ne apart

end Fields

/-! A write leaves every part of the tree alone that the node is not in. -/

/-- No field of `a` differs. -/
structure Same (l m : Links α) (a : α) : Prop where
  parent : m.parent a = l.parent a
  child : ∀ side, m.child side a = l.child side a
  isRed : m.isRed a = l.isRed a

omit [DecidableEq α] in
theorem Below.congr (below : Below l p t) (same : ∀ a ∈ t.inorder, Same l m a) : Below m p t := by
  induction t generalizing p with
  | nil => trivial
  | node red left value right leftward rightward =>
    obtain ⟨parent,colour,near,far,ofLeft,ofRight⟩ := below
    have here := same value (mem_append_right _ (mem_cons_self ..))
    refine ⟨here.parent.trans parent,here.isRed.trans colour,(here.child _).trans near,
      (here.child _).trans far,leftward ofLeft ?_,rightward ofRight ?_⟩
    · exact fun a member => same a (mem_append_left _ member)
    · exact fun a member => same a (mem_append_right _ (mem_cons_of_mem _ member))

omit [DecidableEq α] in
theorem Above.congr (above : Above l p path) (same : ∀ a ∈ path.values, Same l m a)
    (root : m.root = l.root) : Above m p path := by
  induction path generalizing p with
  | nil => exact root.trans above
  | cons f up hypothesis =>
    obtain ⟨parent,colour,near,far,sibling,rest⟩ := above
    have here := same f.value (mem_cons_self ..)
    refine ⟨here.parent.trans parent,here.isRed.trans colour,(here.child _).trans near,
      (here.child _).trans far,sibling.congr ?_,hypothesis rest ?_⟩
    · exact fun a member => same a (mem_cons_of_mem _ (mem_append_left _ member))
    · exact fun a member => same a (mem_cons_of_mem _ (mem_append_right _ member))

omit [DecidableEq α] in
theorem Same.trans {n : Links α} (first : Same l m a) (second : Same m n a) : Same l n a :=
  ⟨second.parent.trans first.parent,fun side => (second.child side).trans (first.child side),
    second.isRed.trans first.isRed⟩

theorem same_setParent (other : b ≠ a) : Same l (l.setParent a p) b :=
  ⟨setParent_of_ne other,fun _ => rfl,rfl⟩

theorem same_setChild (other : b ≠ a) : Same l (l.setChild side a p) b :=
  ⟨rfl,fun _ => setChild_of_ne other,rfl⟩

theorem same_setRed (other : b ≠ a) : Same l (l.setRed a red) b :=
  ⟨rfl,fun _ => rfl,setRed_of_ne other⟩

theorem same_reparent (other : q ≠ some b) : Same l (l.reparent q p) b :=
  ⟨reparent_of_ne other,fun _ => by rw [reparent_child],by rw [reparent_isRed]⟩

theorem same_relink (other : p ≠ some b) : Same l (l.relink side p a q) b :=
  ⟨by rw [relink_parent],fun _ => relink_of_ne other,by rw [relink_isRed]⟩

section

variable (below : Below l p t) (outside : a ∉ t.inorder)
include below outside

theorem Below.setParent : Below (l.setParent a q) p t :=
  below.congr fun _ member => same_setParent (ne_of_mem_of_not_mem member outside)

theorem Below.setChild : Below (l.setChild side a q) p t :=
  below.congr fun _ member => same_setChild (ne_of_mem_of_not_mem member outside)

theorem Below.setRed : Below (l.setRed a red) p t :=
  below.congr fun _ member => same_setRed (ne_of_mem_of_not_mem member outside)

end

theorem Below.relink (below : Below l p t) (outside : ∀ b, q = some b → b ∉ t.inorder)
    {c : Option α} : Below (l.relink side q a c) p t :=
  below.congr fun b member => same_relink fun same => outside b same member

theorem Below.reparent_other (below : Below l p t) {c : Option α}
    (outside : ∀ b, c = some b → b ∉ t.inorder) : Below (l.reparent c q) p t :=
  below.congr fun b member => same_reparent fun same => outside b same member

section

variable (above : Above l p path) (outside : a ∉ path.values)
include above outside

theorem Above.setParent : Above (l.setParent a q) p path :=
  above.congr (fun _ member => same_setParent (ne_of_mem_of_not_mem member outside)) rfl

theorem Above.setChild : Above (l.setChild side a q) p path :=
  above.congr (fun _ member => same_setChild (ne_of_mem_of_not_mem member outside)) rfl

theorem Above.setRed : Above (l.setRed a red) p path :=
  above.congr (fun _ member => same_setRed (ne_of_mem_of_not_mem member outside)) rfl

end

theorem Above.reparent (above : Above l p path) {c : Option α}
    (outside : ∀ b, c = some b → b ∉ path.values) : Above (l.reparent c q) p path :=
  above.congr (fun b member => same_reparent fun same => outside b same member) reparent_root

/-- A subtree gets another parent. -/
theorem Below.reparent (below : Below l p t) (nodup : t.inorder.Nodup) :
    Below (l.reparent t.top q) q t := by
  cases t with
  | nil => trivial
  | node red left value right =>
    obtain ⟨_,colour,near,far,ofLeft,ofRight⟩ := below
    obtain ⟨outside,_⟩ := nodup_cons.mp (perm_middle.nodup_iff.mp nodup)
    rw [mem_append,not_or] at outside
    exact ⟨setParent_self,colour,near,far,ofLeft.setParent outside.1,ofRight.setParent outside.2⟩

/-- The path leads to something else. -/
theorem Above.lead (above : Above l p (f :: up)) (nodup : (Path.values (f :: up)).Nodup) :
    Above (l.setChild f.side f.value q) q (f :: up) := by
  obtain ⟨parent,colour,_,far,sibling,rest⟩ := above
  rw [Path.values,cons_append,nodup_cons,mem_append,not_or] at nodup
  exact ⟨parent,colour,setChild_self,(congrFun setChild_side _).trans far,
    sibling.setChild nodup.1.1,rest.setChild nodup.1.2⟩

theorem Above.relink (above : Above l (some a) path) (nodup : path.values.Nodup)
    (outside : a ∉ path.values) : Above (l.relink side path.top a q) q path := by
  cases path with
  | nil => rfl
  | cons f up =>
    have ⟨_,_,near,far,_,_⟩ := above
    have whole : l.relink side (some f.value) a q = l.setChild f.side f.value q := by
      unfold Links.relink
      dsimp only
      rcases f.side.eq_or_other side with rfl | rfl
      · rw [if_pos near.symm]
      · have different : some a ≠ l.child f.side.other f.value := by
          rw [far]
          intro same
          refine outside (mem_cons_of_mem _ (mem_append_left _ ?_))
          exact BinTree.top_mem same.symm
        rw [if_neg different,Side.other_other]
    rw [Path.top,whole]
    exact above.lead nodup

/-! Moves of the focus, colours and rotations. -/

omit [DecidableEq α] in
/-- From a child of a node to the other one. -/
theorem zip_flip {c : Bool} : Zip l (⟨side,c,a,u⟩ :: path) t ↔ Zip l (⟨side.other,c,a,t⟩ :: path) u := by
  rw [← zip_make,← zip_make,BinTree.make_other]

/-- The nodes of a tree and of what is around it. -/
structure Apart (vs : List α) (a : α) (near far : BinTree α) : Prop where
  around : vs.Nodup
  nearNodup : near.inorder.Nodup
  farNodup : far.inorder.Nodup
  outside : a ∉ vs
  notNear : a ∉ near.inorder
  notFar : a ∉ far.inorder
  sides : near.inorder.Disjoint far.inorder
  aroundNear : vs.Disjoint near.inorder
  aroundFar : vs.Disjoint far.inorder

omit [DecidableEq α] in
theorem distinct_make {vs : List α} :
    (vs ++ (BinTree.make side red a near far).inorder).Nodup ↔ Apart vs a near far := by
  rw [(BinTree.inorder_make_perm.append_left vs).nodup_iff]
  simp only [nodup_append',nodup_cons,disjoint_cons_right,disjoint_append_right,mem_append,not_or]
  constructor
  · rintro ⟨around,⟨⟨notNear,notFar⟩,near,far,sides⟩,outside,aroundNear,aroundFar⟩
    exact ⟨around,near,far,outside,notNear,notFar,sides,aroundNear,aroundFar⟩
  · rintro ⟨around,near,far,outside,notNear,notFar,sides,aroundNear,aroundFar⟩
    exact ⟨around,⟨⟨notNear,notFar⟩,near,far,sides⟩,outside,aroundNear,aroundFar⟩

theorem Zip.setRed {c : Bool} (zip : Zip l path (.make side c a near far)) (red : Bool) :
    Zip (l.setRed a red) path (.make side red a near far) := by
  obtain ⟨above,below,distinct⟩ := zip
  have apart := distinct_make.mp distinct
  obtain ⟨parent,_,ofNear,ofFar,nearBelow,farBelow⟩ := below_make.mp below
  rw [BinTree.top_make] at above
  refine ⟨?_,?_,distinct_make.mpr apart⟩
  · rw [BinTree.top_make]
    exact above.setRed apart.outside
  · exact below_make.mpr ⟨parent,setRed_self,ofNear,ofFar,nearBelow.setRed apart.notNear,
      farBelow.setRed apart.notFar⟩

theorem Zip.setRed_frame {c : Bool} (zip : Zip l (⟨side,c,a,u⟩ :: path) t) (red : Bool) :
    Zip (l.setRed a red) (⟨side,red,a,u⟩ :: path) t :=
  zip_make.mp ((zip_make.mpr zip).setRed red)

theorem Zip.setRed_sibling {c d : Bool} {s : Side}
    (zip : Zip l (⟨side,c,b,.make s d a near far⟩ :: path) t) (red : Bool) :
    Zip (l.setRed a red) (⟨side,c,b,.make s red a near far⟩ :: path) t := by
  have focus := (zip_flip.mp zip).setRed red
  rwa [zip_flip,Side.other_other] at focus

theorem Zip.rotate {c d : Bool} {x y : α} {u v w : BinTree α}
    (zip : Zip l path (.make side c x u (.make side d y v w))) :
    ∃ m, l.rotate side x = some m ∧ Zip m path (.make side d y (.make side c x u v) w) := by
  obtain ⟨above,below,distinct⟩ := zip
  obtain ⟨parentX,colourX,nearX,farX,belowU,inner⟩ := below_make.mp below
  obtain ⟨parentY,colourY,nearY,farY,belowV,belowW⟩ := below_make.mp inner
  have apart := distinct_make.mp distinct
  have apart' := distinct_make.mp (show ([] ++ _ : List α).Nodup from apart.farNodup)
  have distinctY : x ≠ y := fun same => apart.notFar (by simp [same])
  have aboveY : y ∉ path.values := fun member => apart.aroundFar member (by simp)
  have innerX : v.top ≠ some x := fun first => apart.notFar (by simp [BinTree.top_mem first])
  have aboveV : ∀ b ∈ path.values, v.top ≠ some b := fun b member first =>
    apart.aroundFar member (by simp [BinTree.top_mem first])
  -- the inner subtree moves under `x`, then the path is led to `y`
  set l₂ := (l.setChild side.other x v.top).reparent v.top (some x) with l₂_eq
  set l₃ := l₂.setParent y path.top with l₃_eq
  set l₄ := l₃.relink side path.top x (some y) with l₄_eq
  set m := (l₄.setChild side y (some x)).setParent x (some y) with m_eq
  have parent₂ : l₂.parent x = path.top := (reparent_of_ne innerX).trans parentX
  have parent₃ : l₃.parent x = path.top := (setParent_of_ne distinctY).trans parent₂
  have result : l.rotate side x = some m := by
    simp [Links.rotate,farX,nearY,← l₂_eq,parent₂,← l₃_eq,parent₃,← l₄_eq,← m_eq]
  have into : ∀ b, b ≠ x → v.top ≠ some b → Same l l₂ b := fun b other inner =>
    (same_setChild other).trans (same_reparent inner)
  have out : ∀ b, b ≠ x → b ≠ y → Same l₄ m b := fun b other other' =>
    (same_setChild other').trans (same_setParent other)
  have through : ∀ b, b ≠ x → b ≠ y → path.top ≠ some b → Same l₂ m b := fun b other other' no =>
    ((same_setParent other').trans (same_relink no)).trans (out b other other')
  have aboveM : Above m (some y) path := by
    have first : Above l₃ (some x) path := by
      rw [BinTree.top_make] at above
      refine above.congr (fun b member => ?_) (by simp [l₃_eq,l₂_eq])
      exact (into b (ne_of_mem_of_not_mem member apart.outside) (aboveV b member)).trans
        (same_setParent (ne_of_mem_of_not_mem member aboveY))
    have led : Above l₄ (some y) path := first.relink apart.around apart.outside
    refine led.congr (fun b member => ?_) rfl
    exact out b (ne_of_mem_of_not_mem member apart.outside) (ne_of_mem_of_not_mem member aboveY)
  have belowU' : Below m (some x) u := by
    refine belowU.congr fun b member => ?_
    have other : b ≠ x := ne_of_mem_of_not_mem member apart.notNear
    have inner : v.top ≠ some b := fun first =>
      apart.sides member (by simp [BinTree.top_mem first])
    refine (into b other inner).trans (through b other ?_ ?_)
    · exact fun same => apart.sides member (by simp [same])
    · exact fun first => apart.aroundNear (Path.top_mem first) member
  have belowW' : Below m (some y) w := by
    refine belowW.congr fun b member => ?_
    have other : b ≠ x := fun same => apart.notFar (by simp [← same,member])
    refine (into b other fun first => apart'.sides (BinTree.top_mem first) member).trans
      (through b other (ne_of_mem_of_not_mem member apart'.notFar) fun first => ?_)
    exact apart.aroundFar (Path.top_mem first) (by simp [member])
  have belowV' : Below m (some x) v := by
    have outside : x ∉ v.inorder := fun member => apart.notFar (by simp [member])
    have moved : Below l₂ (some x) v := (belowV.setChild outside).reparent apart'.nearNodup
    refine moved.congr fun b member => through b (ne_of_mem_of_not_mem member outside)
      (ne_of_mem_of_not_mem member apart'.notNear) fun first => ?_
    exact apart.aroundFar (Path.top_mem first) (by simp [member])
  have fieldsX : m.isRed x = c ∧ m.child side x = u.top ∧ m.child side.other x = v.top := by
    have noPath : path.top ≠ some x := fun first => apart.outside (Path.top_mem first)
    refine ⟨?_,?_,?_⟩
    · simp [m_eq,l₄_eq,l₃_eq,l₂_eq,colourX]
    · rw [setParent_child,setChild_of_ne distinctY,relink_of_ne noPath,
        setParent_child,reparent_child,setChild_other_side,nearX]
    · rw [setParent_child,setChild_of_ne distinctY,relink_of_ne noPath,
        setParent_child,reparent_child,setChild_self]
  have fieldsY : m.parent y = path.top ∧ m.isRed y = d ∧ m.child side.other y = w.top := by
    have noPath : path.top ≠ some y := fun first => aboveY (Path.top_mem first)
    refine ⟨?_,?_,?_⟩
    · rw [setParent_of_ne distinctY.symm,setChild_parent,relink_parent,setParent_self]
    · simp [m_eq,l₄_eq,l₃_eq,l₂_eq,colourY]
    · rw [setParent_child,setChild_side,relink_of_ne noPath,setParent_child,reparent_child,setChild_of_ne distinctY.symm,farY]
  refine ⟨m,result,by rwa [BinTree.top_make],?_,?_⟩
  · refine below_make.mpr ⟨fieldsY.1,fieldsY.2.1,?_,fieldsY.2.2,?_,belowW'⟩
    · rw [BinTree.top_make,setParent_child,setChild_self]
    · exact below_make.mpr ⟨setParent_self,fieldsX.1,fieldsX.2.1,fieldsX.2.2,belowU',belowV'⟩
  · simp only [BinTree.inorder_make,Side.join_assoc] at distinct ⊢
    exact distinct

end GpuExt.LinkedTree

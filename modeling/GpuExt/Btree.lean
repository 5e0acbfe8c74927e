import GpuExt.LinkedTree

/-! The balanced tree of closed intervals, as it is linked in memory. NULL is its only
sentinel: a function gives no result when it would follow NULL, or when a loop takes more turns
than the deepest tree of 64-bit keys has levels. -/
namespace GpuExt.Btree

open LinkedTree

variable {α : Type} [DecidableEq α]

def maxTurns : Nat := 256

def rotateLeft (l : Links α) (x : α) : Option (Links α) := l.rotate .left x

def rotateRight (l : Links α) (x : α) : Option (Links α) := l.rotate .right x

/-- Both halves of the loops below are mirror images of each other. -/
def rotateTo : Side → Links α → α → Option (Links α)
  | .left => rotateLeft
  | .right => rotateRight

def blackenRoot (l : Links α) : Option (Links α) := do
  let root ← l.root
  some (l.setRed root false)

def sideOf (l : Links α) (p : α) (x : Option α) : Side :=
  if x = l.child .left p then .left else .right

def insertFixup : Nat → Links α → α → Option (Links α)
  | 0, _, _ => none
  | turns + 1, l, x =>
    if some x = l.root then blackenRoot l
    else do
      let parent ← l.parent x
      if l.isRed parent then
        let grandparent ← l.parent parent
        let side := sideOf l grandparent (some parent)
        if l.isRedAt (l.child side.other grandparent) then
          let y ← l.child side.other grandparent
          let l := l.setRed parent false
          let l := l.setRed y false
          let l := l.setRed grandparent true
          insertFixup turns l grandparent
        else
          let (l,x) ← straighten l side parent x
          let l ← lift l side x
          insertFixup turns l x
      else blackenRoot l
where
  /-- Make the node an outer grandchild. -/
  straighten (l : Links α) (side : Side) (parent x : α) : Option (Links α × α) :=
    if some x = l.child side.other parent then do
      let l ← rotateTo side l parent
      some (l,parent)
    else some (l,x)
  lift (l : Links α) (side : Side) (x : α) : Option (Links α) := do
    let parent ← l.parent x
    let l := l.setRed parent false
    let grandparent ← l.parent parent
    let l := l.setRed grandparent true
    rotateTo side.other l grandparent

/-- What one turn of `deleteFixup` does on one side of `parentOfX`; the node where the next turn
goes on. -/
def deleteFixupAt (l : Links α) (side : Side) (parentOfX : α) : Option (Links α × Option α) := do
  let w := l.child side.other parentOfX
  let (l,w) ← lower l w
  match w with
  | none => some (l,some parentOfX)
  | some w =>
    if l.isRedAt (l.child .left w) = false ∧ l.isRedAt (l.child .right w) = false then
      some (l.setRed w true,some parentOfX)
    else
      let (l,w) ← straighten l w
      let l := l.setRed w (l.isRed parentOfX)
      let l := l.setRed parentOfX false
      let outer ← l.child side.other w
      let l := l.setRed outer false
      let l ← rotateTo side l parentOfX
      some (l,l.root)
where
  /-- A red sibling goes up. -/
  lower (l : Links α) : Option α → Option (Links α × Option α)
    | none => some (l,none)
    | some w =>
      if l.isRed w then do
        let l := l.setRed w false
        let l := l.setRed parentOfX true
        let l ← rotateTo side l parentOfX
        some (l,l.child side.other parentOfX)
      else some (l,some w)
  /-- The outer child of the sibling becomes red. -/
  straighten (l : Links α) (w : α) : Option (Links α × α) :=
    if l.isRedAt (l.child side.other w) = false then do
      let inner ← l.child side w
      let l := l.setRed inner false
      let l := l.setRed w true
      let l ← rotateTo side.other l w
      let w ← l.child side.other parentOfX
      some (l,w)
    else some (l,w)

def deleteFixup : Nat → Links α → Option α → Option α → Option (Links α)
  | 0, _, _, _ => none
  | turns + 1, l, parentOfX, x =>
    if x ≠ l.root ∧ l.isRedAt x = false then
      match parentOfX,x with
      | some p,x => do
        let (l,x) ← deleteFixupAt l (sideOf l p x) p
        let x ← x
        deleteFixup turns l (l.parent x) (some x)
      | none,some x => deleteFixup turns l (l.parent x) (some x)
      | none,none => some l
    else
      match x with
      | some x => some (l.setRed x false)
      | none => some l

def leftmost (l : Links α) : Nat → α → Option α
  | 0, _ => none
  | turns + 1, y =>
    match l.child .left y with
    | some left => leftmost l turns left
    | none => some y

/-- `y` takes the place of `z`. -/
def replaceNode (l : Links α) (z y : α) : Links α :=
  let l := l.setParent y (l.parent z)
  let l := l.relink .left (l.parent z) z (some y)
  let l := l.setRed y (l.isRed z)
  let l := l.setChild .left y (l.child .left z)
  let l := l.reparent (l.child .left z) (some y)
  let l := l.setChild .right y (l.child .right z)
  l.reparent (l.child .right z) (some y)

/-- The node whose place in the tree is given up: `z`, or its successor if it has two children. -/
def victim (l : Links α) (z : α) : Option α :=
  match l.child .left z,l.child .right z with
  | some _,some right => leftmost l maxTurns right
  | some _,none => some z
  | none,_ => some z

def unlinkVictim (l : Links α) (z y : α) : Option (Links α) :=
  let x := (l.child .left y).or (l.child .right y)
  let parentOfX := l.parent y
  let l := l.reparent x parentOfX
  let l := l.relink .left (l.parent y) y x
  let yWasBlack := !l.isRed y
  let (l,parentOfX) :=
    if y ≠ z then (replaceNode l z y,if parentOfX = some z then some y else parentOfX)
    else (l,parentOfX)
  if yWasBlack then deleteFixup maxTurns l parentOfX x else some l

def unlinkLinks (l : Links α) (z : α) : Option (Links α) := do
  let y ← victim l z
  unlinkVictim l z y

/-! The tree with its keys. -/

structure State (α : Type) where
  links : Links α
  keyStart : α → Nat
  keyEnd : α → Nat

inductive Status where
  | ok
  | invalidArgument
  | insertDuplicateName
  | objectNotFound
  deriving DecidableEq, Repr

/-- The loop of `btreeInsert` and of `btreeSearch`: the node whose interval meets `[low, high]`,
and the node before it on the way down. -/
def descend (s : State α) (low high : Nat) :
    Nat → Option α → Option α → Option (Option α × Option α)
  | _, none, parent => some (none,parent)
  | 0, some _, _ => none
  | turns + 1, some current, parent =>
    if high < s.keyStart current then
      descend s low high turns (s.links.child .left current) (some current)
    else if low > s.keyEnd current then
      descend s low high turns (s.links.child .right current) (some current)
    else some (some current,parent)

def linkNode (s : State α) (newNode : α) (parent : Option α) : Links α :=
  let l := s.links.setParent newNode parent
  let l := l.setChild .left newNode none
  let l := l.setChild .right newNode none
  let l := l.setRed newNode true
  match parent with
  | none => { l with root := some newNode }
  | some parent =>
    if s.keyEnd newNode < s.keyStart parent then l.setChild .left parent (some newNode)
    else l.setChild .right parent (some newNode)

def btreeInsert (s : State α) (newNode : α) : Option (State α × Status) :=
  if s.keyEnd newNode < s.keyStart newNode then some (s,.invalidArgument)
  else do
    let (duplicate,parent) ←
      descend s (s.keyStart newNode) (s.keyEnd newNode) maxTurns s.links.root none
    match duplicate with
    | some _ => some (s,.insertDuplicateName)
    | none =>
      let links ← insertFixup maxTurns (linkNode s newNode parent) newNode
      some ({ s with links := links },.ok)

def btreeUnlink (s : State α) (node : α) : Option (State α × Status) := do
  let links ← unlinkLinks s.links node
  some ({ s with links := links },.ok)

def btreeSearch (s : State α) (keyOffset : Nat) : Option (Option α × Status) := do
  let (found,_) ← descend s keyOffset keyOffset maxTurns s.links.root none
  some (found,if found.isSome then .ok else .objectNotFound)

def enumStartFrom (s : State α) (keyOffset : Nat) : Nat → Option α → Option α → Option (Option α)
  | _, none, node => some node
  | 0, some _, _ => none
  | turns + 1, some current, node =>
    if keyOffset < s.keyStart current then
      enumStartFrom s keyOffset turns (s.links.child .left current) (some current)
    else if keyOffset > s.keyEnd current then
      enumStartFrom s keyOffset turns (s.links.child .right current) node
    else some (some current)

def btreeEnumStart (s : State α) (keyOffset : Nat) : Option (Option α) :=
  enumStartFrom s keyOffset maxTurns s.links.root none

/-- Up to the first node behind the key. -/
def climb (s : State α) (key : Nat) : Nat → Option α → Option (Option α)
  | _, none => some none
  | 0, some _ => none
  | turns + 1, some current =>
    if s.keyStart current > key then some (some current)
    else climb s key turns (s.links.parent current)

def btreeEnumNext (s : State α) (node : α) : Option (Option α) :=
  match s.links.child .right node with
  | some right => (leftmost s.links maxTurns right).map some
  | none => climb s (s.keyEnd node) maxTurns (s.links.parent node)

/-- The nodes that a caller sees that goes on from a node until there is none left. -/
def enumerate (s : State α) : Nat → Option α → Option (List α)
  | _, none => some []
  | 0, some _ => none
  | turns + 1, some node => do
    let next ← btreeEnumNext s node
    let rest ← enumerate s turns next
    some (node :: rest)

end GpuExt.Btree

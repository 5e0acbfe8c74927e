import Mathlib.Data.Finset.Card
import Mathlib.Logic.Function.Basic

/-! Freeing a resource of a client together with what hangs on it. The resources to be freed are
gathered in the pending free list of the client, and then freed from the head of the list on. -/
namespace GpuExt.ClientFree

inductive FreePriority where
  | default
  | high
  deriving DecidableEq, Repr

/-- A resource reference. Resources are named by their handles; the maps are lists in the order
of their iterators. -/
structure ResourceRef where
  parentRef : Option Nat
  childRefMap : List Nat
  depRefMap : List Nat
  depBackRefMap : List Nat
  bInvalidated : Bool
  freePriority : FreePriority

/-- What became of a resource: its reference was destructed, or it was only invalidated. -/
inductive Event where
  | freed (handle : Nat)
  | invalidated (handle : Nat)
  deriving DecidableEq, Repr

structure Client where
  resources : Finset Nat
  ref : Nat → ResourceRef
  pendingFreeList : List Nat
  /-- The targets of the frees that are going on, the innermost first. -/
  freeStack : List Nat
  events : List Event

section

variable (client : Client)

def setRef (handle : Nat) (ref : ResourceRef) : Client :=
  { client with ref := Function.update client.ref handle ref }

/-- The circular dependency check of a move. -/
def isCircular (target reference : Nat) : Bool :=
  reference ≠ target ∧ target ∈ client.freeStack

/-- The target is put into the list, at its front if it is moved. -/
def putInList (target : Nat) (move : Bool) : Client :=
  if move then
    { client with pendingFreeList := target :: client.pendingFreeList.erase target }
  else if target ∉ client.pendingFreeList then
    { client with pendingFreeList := target :: client.pendingFreeList }
  else client

/-- `clientUpdatePendingFreeList`, with the depth of the recursion as fuel. No resource class
of the driver adds further dependants. -/
def clientUpdatePendingFreeList : Nat → Client → Nat → Nat → Bool → Client
  | 0, client, _, _, _ => client
  | fuel + 1, client, target, reference, move =>
    if move ∧ isCircular client target reference then client
    else
      let put := putInList client target move
      let children := (client.ref target).childRefMap.foldl
        (fun client child => clientUpdatePendingFreeList fuel client child reference true) put
      (client.ref target).depRefMap.foldl
        (fun client dependant => clientUpdatePendingFreeList fuel client dependant reference true)
        children

end

def listNext (list : List Nat) (handle : Nat) : Option Nat := list[list.idxOf handle + 1]?

/-- High priority resources are moved to the front one by one, up to the target of the free. The
walk goes on with the entry that followed before the move. -/
def moveHighPriority (depth : Nat) (stop : Nat) : Nat → Option Nat → Client → Client
  | 0, _, client => client
  | fuel + 1, target, client =>
    match target with
    | none => client
    | some target =>
      if target = stop then client
      else
        let following := listNext client.pendingFreeList target
        let client :=
          if (client.ref target).freePriority = .high then
            clientUpdatePendingFreeList depth client target target true
          else client
        moveHighPriority depth stop fuel following client

/-- The entry after the last high priority one, or the head of the list. The search goes from
the target of the free backwards. -/
def firstLowPriority (client : Client) (stop : Nat) : Option Nat :=
  let upToStop := client.pendingFreeList.take (client.pendingFreeList.idxOf stop + 1)
  match upToStop.reverse.find? fun handle => (client.ref handle).freePriority = .high with
  | some last => listNext client.pendingFreeList last
  | none => client.pendingFreeList.head?

def postProcessPendingFreeList (depth : Nat) (client : Client) (stop : Nat) : Client × Option Nat :=
  let moved := moveHighPriority depth stop client.pendingFreeList.length
    client.pendingFreeList.head? client
  (moved,firstLowPriority moved stop)

/-- `refHasAncestor`, with the length of the chain of parents as fuel. -/
def refHasAncestor (client : Client) : Nat → Nat → Nat → Bool
  | 0, _, _ => false
  | fuel + 1, descendant, ancestor =>
    match (client.ref descendant).parentRef with
    | none => false
    | some parent => parent = ancestor || refHasAncestor client fuel parent ancestor

section

variable (client : Client) (handle : Nat)

def refRemoveDependant (resource dependant : Nat) : Client :=
  let client := setRef client dependant { client.ref dependant with
    depBackRefMap := (client.ref dependant).depBackRefMap.erase resource }
  setRef client resource { client.ref resource with
    depRefMap := (client.ref resource).depRefMap.erase dependant }

def cleanupDependencies : Client :=
  (client.ref handle).depBackRefMap.foldl
    (fun client resource => refRemoveDependant client resource handle) client

def cleanupDependants : Client :=
  (client.ref handle).depRefMap.foldl
    (fun client dependant => refRemoveDependant client handle dependant) client

/-- The resource object is deleted and no longer depends on others. -/
def invalidate : Client :=
  if (client.ref handle).bInvalidated then client
  else cleanupDependencies
    (setRef client handle { client.ref handle with bInvalidated := true }) handle

/-- The reference leaves the map of its parent. -/
def leaveParent : Client :=
  match (client.ref handle).parentRef with
  | none => client
  | some parent =>
    setRef client parent { client.ref parent with
      childRefMap := (client.ref parent).childRefMap.erase handle }

def removeRef : Client :=
  let client := cleanupDependants (cleanupDependencies client handle) handle
  { client with
    resources := client.resources.erase handle
    events := client.events ++ [.freed handle] }

end

/-- `clientFreeResource` with `clientDestructResourceRef`, which frees children that were left
behind, with the depth of the tree as fuel. -/
def clientFreeResource : Nat → Client → Nat → Bool → Client
  | 0, client, _, _ => client
  | fuel + 1, client, handle, invalidateOnly =>
    if handle ∉ client.resources then client
    else
      let client := { client with pendingFreeList := client.pendingFreeList.erase handle }
      let client := invalidate client handle
      if invalidateOnly then { client with events := client.events ++ [.invalidated handle] }
      else
        let client := leaveParent client handle
        let client := (client.ref handle).childRefMap.foldl
          (fun client child => clientFreeResource fuel client child false) client
        removeRef client handle

structure FreeParams where
  hResource : Nat
  bInvalidateOnly : Bool
  bHiPriOnly : Bool

/-- A resource outside of the trees that are being freed is only invalidated. -/
def invalidatesOnly (depth : Nat) (client : Client) (params : FreeParams) (target : Nat) : Bool :=
  if client.freeStack.any (refHasAncestor client depth target) then params.bInvalidateOnly
  else true

def freeLoop (depth : Nat) (params : FreeParams) (firstLow : Option Nat) : Nat → Client → Client
  | 0, client => client
  | fuel + 1, client =>
    match client.pendingFreeList with
    | [] => client
    | target :: _ =>
      if params.bHiPriOnly ∧ firstLow = some target then client
      else if target = params.hResource then
        clientFreeResource depth client target params.bInvalidateOnly
      else
        freeLoop depth params firstLow fuel
          (clientFreeResource depth client target (invalidatesOnly depth client params target))

/-- The list is made with the target on the free stack. In a recursive free the target is moved
like the others. -/
def pendingList (client : Client) (target : Nat) : Client :=
  clientUpdatePendingFreeList client.resources.card
    { client with freeStack := target :: client.freeStack } target target
    (client.freeStack ≠ [])

/-- `serverFreeResourceTree` on a client that is locked. The number of resources bounds every
recursion. -/
def serverFreeResourceTree (params : FreeParams) (client : Client) : Client :=
  if params.bInvalidateOnly ∧ (client.ref params.hResource).bInvalidated then client
  else
    let depth := client.resources.card
    let listed := pendingList client params.hResource
    let processed := postProcessPendingFreeList depth listed params.hResource
    let freed := freeLoop depth params processed.2 processed.1.pendingFreeList.length processed.1
    { freed with freeStack := client.freeStack }

end GpuExt.ClientFree

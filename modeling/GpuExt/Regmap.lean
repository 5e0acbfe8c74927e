import Mathlib.Logic.Function.Basic
import Mathlib.Data.List.Defs
import GpuExt.NvTypes

/-! The region map of the physical memory allocator: one bit plane per state or
attribute bit, in 64-bit words, and the counters that it keeps in the statistics
shared by all regions. -/
namespace GpuExt.Regmap

open Function

abbrev PageStatus := NvU32

inductive MapIdx where
  | allocUnpin
  | allocPin
  | evicting
  | scrubbing
  | persistent
  | numaReuse
  | blacklist
  | localized
  deriving DecidableEq, Repr

def MapIdx.bit : MapIdx → Nat
  | .allocUnpin => 0
  | .allocPin => 1
  | .evicting => 2
  | .scrubbing => 3
  | .persistent => 4
  | .numaReuse => 5
  | .blacklist => 6
  | .localized => 7

def stateFree : PageStatus := 0
def stateUnpin : PageStatus := 1#32 <<< MapIdx.allocUnpin.bit
def statePin : PageStatus := 1#32 <<< MapIdx.allocPin.bit
def stateMask : PageStatus := stateUnpin ||| statePin ||| stateFree

def PageStatus.has (status : PageStatus) (k : MapIdx) : Bool := status.getLsbD k.bit

structure Stats where
  num2mbPages : NvU64
  numFreeFrames : NvU64
  numFree2mbPages : NvU64
  num2mbPagesProtected : NvU64
  numFreeFramesProtected : NvU64
  numFree2mbPagesProtected : NvU64
  deriving DecidableEq, Repr

abbrev Planes := MapIdx → Nat → NvU64

structure PmaRegmap where
  totalFrames : NvU64
  mapLength : NvU64
  map : Planes
  bProtected : Bool

def pageBitIdx (n : NvU64) : NvU64 := n &&& 63
def pageMapIdx (n : NvU64) : NvU64 := n >>> 6

def statePlanes : List MapIdx := [.allocUnpin,.allocPin]
def attribPlanes : List MapIdx :=
  [.evicting,.scrubbing,.persistent,.numaReuse,.blacklist,.localized]

def pmaRegmapRead (r : PmaRegmap) (frameNum : NvU64) (readAttrib : Bool) : PageStatus :=
  let mapIndex := pageMapIdx frameNum
  let mapOffset := pageBitIdx frameNum
  let planes := if readAttrib then statePlanes ++ attribPlanes else statePlanes
  let mask := 1#64 <<< mapOffset.toNat
  let val := planes.foldl (fun val k =>
    val ||| (((r.map k mapIndex.toNat &&& mask) >>> mapOffset.toNat) <<< k.bit)) 0
  val.setWidth 32

/-- Bits set in a word, by adding neighbouring fields in place. -/
def nvPopCount64 (x : NvU64) : NvU32 :=
  let temp := x
  let temp := temp - ((temp >>> 1) &&& 0x5555555555555555)
  let temp := (temp &&& 0x3333333333333333) + ((temp >>> 2) &&& 0x3333333333333333)
  let temp := (temp + (temp >>> 4)) &&& 0x0F0F0F0F0F0F0F0F
  let temp := (temp * 0x0101010101010101) >>> 56
  temp.setWidth 32

/-- `_PMA_2MB >> PMA_PAGE_SHIFT` -/
def framesPer2mb : NvU64 := 32

def Stats.destroy (stats : Stats) (totalFrames : NvU64) (bProtected : Bool) : Stats :=
  let num2mbPages := totalFrames / framesPer2mb
  { stats with
    numFreeFrames := stats.numFreeFrames - totalFrames
    numFreeFramesProtected :=
      if bProtected then stats.numFreeFramesProtected - totalFrames else stats.numFreeFramesProtected
    numFree2mbPages := stats.numFree2mbPages - num2mbPages
    numFree2mbPagesProtected :=
      if bProtected then stats.numFree2mbPagesProtected - num2mbPages
      else stats.numFree2mbPagesProtected }

/-- All planes start clear, except that bits after the last frame are pinned. Then no
update can make an incomplete last 2 MB page look free. -/
def initialPlanes (numFrames : NvU64) : Planes :=
  let endOffs := (numFrames - 1) >>> 6
  let endBit := (numFrames - 1) &&& 63
  let endMask := if endBit = 63 then 0 else ~~~(BitVec.allOnes 64 >>> (63 - endBit).toNat)
  fun k => if k = .allocPin then update (fun _ => 0) endOffs.toNat (0 ||| endMask)
    else fun _ => 0

/-- `newMap` and `newPlane` tell which memory allocations succeed. -/
def pmaRegmapInit (numFrames : NvU64) (stats : Stats) (bProtected newMap : Bool)
    (newPlane : MapIdx → Bool) : Option PmaRegmap × Stats :=
  if !newMap then (none,stats)
  else
    let num2mbPages := numFrames / framesPer2mb
    let stats := { stats with
      numFreeFrames := stats.numFreeFrames + numFrames
      num2mbPages := stats.num2mbPages + num2mbPages
      numFree2mbPages := stats.numFree2mbPages + num2mbPages }
    let stats := if bProtected then { stats with
        numFreeFramesProtected := stats.numFreeFramesProtected + numFrames
        num2mbPagesProtected := stats.num2mbPagesProtected + num2mbPages
        numFree2mbPagesProtected := stats.numFree2mbPagesProtected + num2mbPages }
      else stats
    if (statePlanes ++ attribPlanes).all newPlane then
      (some {
        totalFrames := numFrames
        mapLength := pageMapIdx (numFrames - 1) + 1
        map := initialPlanes numFrames
        bProtected },stats)
    else (none,stats.destroy numFrames bProtected)

/-- Planes under change, with the running `delta2m` and `delta64k`. -/
structure Progress where
  map : Planes
  delta2m : NvU64
  delta64k : NvU64

def Planes.write (map : Planes) (k : MapIdx) (idx : Nat) (value : NvU64) : Planes :=
  update map k (update (map k) idx value)

section Change

variable (newState writeMask : PageStatus)

/-- Masked bits take the new state where the write mask has the plane. -/
def planeOut (k : MapIdx) (planeIn bitMask : NvU64) : NvU64 :=
  let masked := planeIn &&& ~~~bitMask
  let res := if newState.has k then bitMask else 0
  if writeMask.has k then masked ||| res else planeIn

/-- `_pmaRegmapDoSingleStateChange`: one word of the two state planes. -/
def doSingleStateChange (p : Progress) (idx : Nat) (bitMask : NvU64) : Progress :=
  let pinIn := p.map .allocPin idx
  let unpinIn := p.map .allocUnpin idx
  let initialState := pinIn ||| unpinIn
  let pinOut := planeOut newState writeMask .allocPin pinIn bitMask
  let unpinOut := planeOut newState writeMask .allocUnpin unpinIn bitMask
  let finalState := pinOut ||| unpinOut
  let xored := initialState ^^^ finalState
  { map := (p.map.write .allocPin idx pinOut).write .allocUnpin idx unpinOut
    delta64k := p.delta64k + (nvPopCount64 xored).setWidth 64
    delta2m := p.delta2m + BitVec.ofNat 64 (
      (decide (finalState.setWidth 32 = 0) != decide (initialState.setWidth 32 = 0)).toNat +
      (decide ((finalState >>> 32).setWidth 32 = 0) !=
        decide ((initialState >>> 32).setWidth 32 = 0)).toNat) }

/-- One attribute plane: masked first and last words, whole words between. -/
def changeAttrib (plane : Nat → NvU64) (initialIdx finalIdx : Nat)
    (initialMask finalMask toWrite : NvU64) : Nat → NvU64 :=
  if initialIdx = finalIdx then
    let mask := initialMask &&& finalMask
    update plane initialIdx ((plane initialIdx &&& ~~~mask) ||| (toWrite &&& mask))
  else
    let plane := update plane initialIdx
      ((plane initialIdx &&& ~~~initialMask) ||| (toWrite &&& initialMask))
    let plane := (List.range' (initialIdx + 1) (finalIdx - (initialIdx + 1))).foldl
      (fun plane j => update plane j toWrite) plane
    update plane finalIdx
      ((plane finalIdx &&& ~~~finalMask) ||| (toWrite &&& finalMask))

/-- The two state planes, over the words from `initialIdx` to `finalIdx`. -/
def changeState (map : Planes) (initialIdx finalIdx initialOffs finalOffs : NvU64)
    (initialMask finalMask : NvU64) : Progress :=
  let p : Progress := ⟨map,0,0⟩
  if initialIdx = finalIdx then
    doSingleStateChange newState writeMask p initialIdx.toNat (initialMask &&& finalMask)
  else
    let (p,initialIdx) := if initialOffs ≠ 0
      then (doSingleStateChange newState writeMask p initialIdx.toNat initialMask,initialIdx + 1)
      else (p,initialIdx)
    let (p,finalIdx) := if finalOffs ≠ 63
      then (doSingleStateChange newState writeMask p finalIdx.toNat finalMask,finalIdx - 1)
      else (p,finalIdx)
    (List.range' initialIdx.toNat (finalIdx.toNat + 1 - initialIdx.toNat)).foldl
      (fun p i => doSingleStateChange newState writeMask p i (BitVec.allOnes 64)) p

section

variable (r : PmaRegmap) (stats : Stats)

/-- `set_regs`: frames that leave the free state are subtracted, others added. -/
def Stats.update (bProtected : Bool) (delta2m delta64k : NvU64) : Stats :=
  let stats := if newState &&& writeMask &&& stateMask ≠ 0
    then { stats with
      numFreeFrames := stats.numFreeFrames - delta64k
      numFree2mbPages := stats.numFree2mbPages - delta2m }
    else { stats with
      numFreeFrames := stats.numFreeFrames + delta64k
      numFree2mbPages := stats.numFree2mbPages + delta2m }
  if !bProtected then stats
  else if writeMask &&& newState &&& stateMask ≠ 0
    then { stats with
      numFreeFramesProtected := stats.numFreeFramesProtected - delta64k
      numFree2mbPagesProtected := stats.numFree2mbPagesProtected - delta2m }
    else { stats with
      numFreeFramesProtected := stats.numFreeFramesProtected + delta64k
      numFree2mbPagesProtected := stats.numFree2mbPagesProtected + delta2m }

def pmaRegmapChangeBlockStateAttrib (frame len : NvU64) : PmaRegmap × Stats :=
  let initialIdx := pageMapIdx frame
  let finalIdx := pageMapIdx (frame + len - 1)
  let initialOffs := pageBitIdx frame
  let finalOffs := pageBitIdx (frame + len - 1)
  let initialMask := BitVec.allOnes 64 <<< initialOffs.toNat
  let finalMask := BitVec.allOnes 64 >>> (63 - finalOffs).toNat
  -- Each attribute plane is handled in an iteration of its own.
  let map : Planes := fun k =>
    if k ∈ attribPlanes ∧ writeMask.has k then
      changeAttrib (r.map k) initialIdx.toNat finalIdx.toNat initialMask finalMask
        (if newState.has k then BitVec.allOnes 64 else 0)
    else r.map k
  if writeMask &&& stateMask = 0 then ({ r with map },stats)
  else
    let p := changeState newState writeMask map initialIdx finalIdx initialOffs finalOffs
      initialMask finalMask
    ({ r with map := p.map },stats.update newState writeMask r.bProtected p.delta2m p.delta64k)

def pmaRegmapChangeStateAttrib (frameNum : NvU64) : PmaRegmap × Stats :=
  pmaRegmapChangeBlockStateAttrib newState writeMask r stats frameNum 1

def pmaRegmapChangePageStateAttrib (startFrame pageSize : NvU64) : PmaRegmap × Stats :=
  pmaRegmapChangeBlockStateAttrib newState writeMask r stats startFrame (pageSize / 0x10000)

end

end Change

/-- All regions of the allocator and the statistics they share. -/
structure Pma where
  regions : List PmaRegmap
  stats : Stats

inductive Call where
  | init (numFrames : NvU64) (bProtected newMap : Bool) (newPlane : MapIdx → Bool)
  | changeBlock (region : Nat) (frame len : NvU64) (newState writeMask : PageStatus)
  | changeState (region : Nat) (frame : NvU64) (newState writeMask : PageStatus)
  | changePage (region : Nat) (frame pageSize : NvU64) (newState writeMask : PageStatus)

def InBounds (r : PmaRegmap) (frame len : NvU64) : Prop :=
  0 < frame.toNat + len.toNat ∧ frame.toNat + len.toNat ≤ r.totalFrames.toNat

instance : Decidable (InBounds r frame len) := inferInstanceAs (Decidable (_ ∧ _))

def Pma.withRegion (s : Pma) (region : Nat) (frame len : NvU64)
    (change : PmaRegmap → Stats → PmaRegmap × Stats) : Option Pma :=
  match s.regions[region]? with
  | none => none
  | some r =>
    if InBounds r frame len then
      let (r,stats) := change r s.stats
      some ⟨s.regions.set region r,stats⟩
    else none

/-- `none` for a change that is not in bounds. -/
def Call.apply (s : Pma) : Call → Option Pma
  | .init numFrames bProtected newMap newPlane =>
    match pmaRegmapInit numFrames s.stats bProtected newMap newPlane with
    | (some r,stats) => some ⟨s.regions ++ [r],stats⟩
    | (none,stats) => some ⟨s.regions,stats⟩
  | .changeBlock region frame len newState writeMask =>
    s.withRegion region frame len fun r stats =>
      pmaRegmapChangeBlockStateAttrib newState writeMask r stats frame len
  | .changeState region frame newState writeMask =>
    s.withRegion region frame 1 fun r stats =>
      pmaRegmapChangeStateAttrib newState writeMask r stats frame
  | .changePage region frame pageSize newState writeMask =>
    s.withRegion region frame (pageSize / 0x10000) fun r stats =>
      pmaRegmapChangePageStateAttrib newState writeMask r stats frame pageSize

def execute : List Call → Pma → Option Pma
  | [], s => some s
  | call :: calls, s => (call.apply s).bind (execute calls)

end GpuExt.Regmap

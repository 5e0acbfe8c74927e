import GpuExt.BtreeInsert

/-! Unlinking a node keeps the tree a red-black tree. -/
namespace GpuExt.Btree

open LinkedTree RedBlack List Option BinTree

variable {α : Type} [DecidableEq α] {l m : Links α} {path up : Path α} {f : Frame α}
  {t near far inner outer sibling : BinTree α} {side : Side} {red : Bool} {x y z p w : α} {q : Option α}
  {b turns : Nat}

/-- After a red sibling has gone up the sibling is black, and if it was red the parent is red. -/
theorem lower_spec (zip : Zip l (⟨side,red,p,sibling⟩ :: up) t)
    (expects : Expects (⟨side,red,p,sibling⟩ :: up) (b + 1)) :
    ∃ m red' sibling' up', deleteFixupAt.lower side p l sibling.top = some (m,sibling'.top) ∧
      Zip m (⟨side,red',p,sibling'⟩ :: up') t ∧
        Expects (⟨side,red',p,sibling'⟩ :: up') (b + 1) ∧ sibling'.isRed = false ∧
          (red' = false → up' = up) ∧
            (Path.plug (⟨side,red',p,sibling'⟩ :: up') t).inorder =
              (Path.plug (⟨side,red,p,sibling⟩ :: up) t).inorder := by
  obtain rfl | ⟨c,w,inner,outer,rfl⟩ := exists_make side sibling
  · exact ⟨l,red,.nil,up,rfl,zip,expects,rfl,fun _ => rfl,rfl⟩
  · have colour : l.isRed w = c := (below_make.mp zip.above.2.2.2.2.1).2.1
    rw [top_make,deleteFixupAt.lower]
    cases c with
    | false =>
      refine ⟨l,red,_,up,?_,zip,expects,isRed_make,fun _ => rfl,rfl⟩
      rw [colour,if_neg Bool.false_ne_true,top_make]
    | true =>
      obtain ⟨ofSibling,black,ofUp⟩ := expects
      have blackParent : red = false := by
        by_contra redParent
        have := (black (by simpa using redParent)).1
        rw [isRed_make] at this
        cases this
      subst blackParent
      obtain ⟨ofInner,ofOuter,blackInner,blackOuter⟩ := balanced_red.mp ofSibling
      have first := zip.setRed_sibling false
      obtain ⟨m,result,rotated⟩ := (zip_make.mpr (first.setRed_frame true)).rotate
      have focus := zip_make.mp (zip_make.mp rotated)
      refine ⟨m,true,inner,_,?_,focus,⟨ofInner,fun _ => ⟨blackInner,rfl⟩,ofOuter,nofun,ofUp⟩,
        blackInner,nofun,?_⟩
      · have child : m.child side.other p = inner.top := focus.above.2.2.2.1
        simp [colour,rotateTo_eq,result,child]
      · simp only [Path.plug,Path.inorder_plug,Frame.fill,inorder_make,Side.join_assoc]

/-- A red inner child of the sibling takes its place. -/
theorem straighten_sibling (zip : Zip l (⟨side,red,p,.make side false w inner outer⟩ :: up) t)
    (ofInner : Balanced inner b) (ofOuter : Balanced outer b)
    (someRed : inner.isRed = true ∨ outer.isRed = true) :
    ∃ m v inner' outer', deleteFixupAt.straighten side p l w = some (m,v) ∧
      Zip m (⟨side,red,p,.make side false v inner' outer'⟩ :: up) t ∧ outer'.isRed = true ∧
        Balanced inner' b ∧ Balanced outer' b ∧
          (make side false v inner' outer').inorder =
            (make side false w inner outer).inorder := by
  have below := below_make.mp zip.above.2.2.2.2.1
  have colour : l.isRedAt (l.child side.other w) = outer.isRed := by
    rw [below.2.2.2.1]
    exact isRedAt_top below.2.2.2.2.2
  rw [deleteFixupAt.straighten,colour]
  cases redOuter : outer.isRed with
  | true => exact ⟨l,w,inner,outer,if_neg nofun,zip,redOuter,ofInner,ofOuter,rfl⟩
  | false =>
    have redInner : inner.isRed = true := someRed.resolve_right (by simp [redOuter])
    obtain ⟨i,far,near,rfl⟩ := exists_red side.other redInner
    obtain ⟨ofFar,ofNear,blackFar,blackNear⟩ := balanced_red.mp ofInner
    have child : l.child side w = some i := below.2.2.1.trans top_make
    -- the sibling is in focus
    have focus := zip_flip.mp zip
    have recoloured := zip_make.mpr (((zip_make.mp focus).setRed false).setRed_frame true)
    rw [← make_other side true] at recoloured
    obtain ⟨m,result,rotated⟩ := recoloured.rotate
    rw [make_other side false,zip_flip,Side.other_other] at rotated
    have next : m.child side.other p = some i := rotated.above.2.2.2.1.trans top_make
    refine ⟨m,i,_,_,?_,rotated,isRed_make,ofNear,
      balanced_red.mpr ⟨ofOuter,ofFar,redOuter,blackFar⟩,?_⟩
    · simp [child,rotateTo_eq,result,next]
    · rw [make_other,make_other]
      simp only [inorder_make,Side.join_assoc]

/-- A red outer child of the sibling: the tree is balanced again. -/
theorem finish_spec (zip : Zip l (⟨side,red,p,.make side false w inner outer⟩ :: up) t)
    (expects : Expects (⟨side,red,p,.make side false w inner outer⟩ :: up) (b + 1))
    (balanced : Balanced t b) (ofInner : Balanced inner b) (ofOuter : Balanced outer b)
    (redOuter : outer.isRed = true) :
    ∃ m o u, ((l.setRed w (l.isRed p)).setRed p false).child side.other w = some o ∧
      rotateTo side (((l.setRed w (l.isRed p)).setRed p false).setRed o false) p = some m ∧
        Zip m up u ∧ Whole up u (b + 1 + weight red) ∧ u ≠ .nil ∧
          u.inorder = (make side red p t (.make side false w inner outer)).inorder := by
  obtain ⟨_,black,ofUp⟩ := expects
  obtain ⟨o,near,far,rfl⟩ := exists_red side redOuter
  obtain ⟨ofNear,ofFar,_,_⟩ := balanced_red.mp ofOuter
  have colour : l.isRed p = red := zip.above.2.1
  have child : l.child side.other w = some o :=
    (below_make.mp zip.above.2.2.2.2.1).2.2.2.1.trans top_make
  have second := zip_flip.mp ((zip.setRed_sibling red).setRed_frame false)
  have third := zip_make.mpr ((zip_make.mp second).setRed_sibling false)
  rw [zip_flip,Side.other_other,← zip_make] at third
  obtain ⟨m,result,rotated⟩ := third.rotate
  refine ⟨m,o,_,child,?_,rotated,⟨ofUp,?_,?_⟩,make_ne_nil,?_⟩
  · rw [rotateTo_eq,colour,result]
  · exact balanced_make.mpr ⟨balanced_black_succ.mpr ⟨balanced,ofInner⟩,
      balanced_black_succ.mpr ⟨ofNear,ofFar⟩,fun _ => ⟨isRed_make,isRed_make⟩⟩
  · intro top
    rw [isRed_make,Bool.eq_false_iff]
    intro isRed
    rw [(black isRed).2] at top
    cases top
  · simp only [inorder_make,Side.join_assoc]

/-- How one turn ends, where the subtree `t` below `p` lacks a black node and `order` is the
order of all nodes: the tree is whole, or the subtree at `p` would be whole were `p` black. -/
inductive Turned (side : Side) (p : α) (up : Path α) (b : Nat) (order : List α) :
    Links α × Option α → Prop where
  | done {m : Links α} {u : BinTree α} (zip : Zip m [] u) (valid : Valid u) (here : u ≠ .nil)
      (same : u.inorder = order) : Turned side p up b order (m,m.root)
  | higher {m : Links α} {t sibling : BinTree α} {red : Bool} {up' : Path α}
      (zip : Zip m up' (.make side red p t sibling))
      (balanced : Balanced (.make side false p t sibling) (b + 1))
      (expects : Expects up' (b + 1 + weight red)) (colour : red = true → topRed up' = false)
      (shorter : red = false → up' = up)
      (same : (up'.plug (.make side red p t sibling)).inorder = order) :
      Turned side p up b order (m,some p)

theorem deleteFixupAt_spec (zip : Zip l (⟨side,red,p,sibling⟩ :: up) t)
    (expects : Expects (⟨side,red,p,sibling⟩ :: up) (b + 1)) (balanced : Balanced t b) :
    ∃ result, deleteFixupAt l side p = some result ∧
      Turned side p up b (Path.plug (⟨side,red,p,sibling⟩ :: up) t).inorder result := by
  have start : l.child side.other p = sibling.top := zip.above.2.2.2.1
  obtain ⟨m,red',sibling',up',lowered,zip',expects',black,shorter,order⟩ := lower_spec zip expects
  obtain rfl | ⟨c,w,inner,outer,rfl⟩ := exists_make side sibling'
  · cases expects'.1
  · rw [isRed_make] at black
    subst black
    obtain ⟨ofInner,ofOuter⟩ := balanced_black_succ.mp expects'.1
    have below := below_make.mp zip'.above.2.2.2.2.1
    have innerRed : m.isRedAt (m.child side w) = inner.isRed := by
      rw [below.2.2.1]
      exact isRedAt_top below.2.2.2.2.1
    have outerRed : m.isRedAt (m.child side.other w) = outer.isRed := by
      rw [below.2.2.2.1]
      exact isRedAt_top below.2.2.2.2.2
    have children : (m.isRedAt (m.child .left w) = false ∧ m.isRedAt (m.child .right w) = false) ↔
        inner.isRed = false ∧ outer.isRed = false := by
      rw [← innerRed,← outerRed]
      cases side with
      | left => exact Iff.rfl
      | right => exact and_comm
    rw [deleteFixupAt,start]
    simp only [lowered,bind_eq_bind,bind_some,top_make,children]
    by_cases bothBlack : inner.isRed = false ∧ outer.isRed = false
    · rw [if_pos bothBlack]
      have recoloured := zip_make.mpr (zip'.setRed_sibling true)
      refine ⟨_,rfl,.higher recoloured ?_ expects'.2.2 (fun isRed => (expects'.2.1 isRed).2) shorter
        ?_⟩
      · exact balanced_black_succ.mpr ⟨balanced,
          balanced_red.mpr ⟨ofInner,ofOuter,bothBlack.1,bothBlack.2⟩⟩
      · rw [← order]
        simp only [Path.plug,Path.inorder_plug,Frame.fill,inorder_make]
    · rw [if_neg bothBlack]
      have someRed : inner.isRed = true ∨ outer.isRed = true := by
        rcases not_and_or.mp bothBlack with isRed | isRed
        · exact .inl (by simpa using isRed)
        · exact .inr (by simpa using isRed)
      obtain ⟨m',v,inner',outer',straight,zip'',redOuter,ofInner',ofOuter',order'⟩ :=
        straighten_sibling zip' ofInner ofOuter someRed
      have expects'' : Expects (⟨side,red',p,.make side false v inner' outer'⟩ :: up') (b + 1) :=
        ⟨balanced_black_succ.mpr ⟨ofInner',ofOuter'⟩,fun isRed => ⟨isRed_make,
          (expects'.2.1 isRed).2⟩,expects'.2.2⟩
      obtain ⟨last,o,u,child,rotated,zipU,whole,here,orderU⟩ :=
        finish_spec zip'' expects'' balanced ofInner' ofOuter' redOuter
      refine ⟨(last,last.root),?_,.done zipU.plug whole.valid ?_ ?_⟩
      · simp only [straight,bind_some,child,rotated]
      · exact Path.plug_ne_nil _ here
      · rw [← order]
        simp only [Path.plug,Path.inorder_plug,Frame.fill,orderU,inorder_make,order']

omit [DecidableEq α] in
theorem top_ne_root (zip : Zip l (f :: up) t) : t.top ≠ l.root := by
  obtain ⟨_,_,root⟩ := zip.above.root
  cases first : t.top with
  | none =>
    rw [root]
    nofun
  | some a => exact (zip.root (top_mem first)).symm

/-- The loop ends at the root and at a red node, which becomes black. -/
theorem deleteFixup_stop {q : Option α} (stop : l.root = some x ∨ l.isRed x = true) :
    deleteFixup (turns + 1) l q (some x) = some (l.setRed x false) := by
  have out : ¬ (some x ≠ l.root ∧ l.isRedAt (some x) = false) := by
    rintro ⟨notRoot,black⟩
    rcases stop with root | red
    · exact notRoot root.symm
    · rw [Links.isRedAt,red] at black
      cases black
  exact if_neg out

theorem deleteFixup_spec (zip : Zip l path t) (expects : Expects path (b + 1))
    (balanced : Balanced t b) (enough : path.length + 2 ≤ turns) :
    ∃ m u, deleteFixup turns l path.top t.top = some m ∧ Zip m [] u ∧ Valid u ∧
      u.inorder = (path.plug t).inorder := by
  induction turns generalizing l path t b with
  | zero => omega
  | succ turns hypothesis =>
    cases isRed : t.isRed with
    | true =>
      obtain ⟨x,near,far,rfl⟩ := exists_red .left isRed
      obtain ⟨ofNear,ofFar,_,_⟩ := balanced_red.mp balanced
      have whole : Whole path (.make .left false x near far) (b + 1) :=
        ⟨expects,balanced_black_succ.mpr ⟨ofNear,ofFar⟩,fun _ => isRed_make⟩
      refine ⟨_,_,?_,(zip.setRed false).plug,whole.valid,?_⟩
      · exact deleteFixup_stop (.inr zip.isRed)
      · simp only [Path.inorder_plug,inorder_make]
    | false =>
      cases path with
      | nil =>
        have root : l.root = t.top := zip.above
        obtain rfl | ⟨c,x,near,far,rfl⟩ := exists_make .left t
        · refine ⟨l,.nil,?_,zip,⟨rfl,b,balanced⟩,rfl⟩
          simp [deleteFixup,top,root]
        · subst isRed
          exact ⟨_,_,deleteFixup_stop (.inl root),zip.setRed false,⟨isRed_make,b,balanced⟩,rfl⟩
      | cons f up =>
        obtain ⟨side,red,p,sibling⟩ := f
        have different : t.top ≠ sibling.top := by
          cases first : t.top with
          | some x => exact first ▸ top_ne_sibling zip first
          | none =>
            intro same
            cases top_eq_none.mp same.symm
            cases expects.1
        have side_eq : sideOf l p t.top = side := sideOf_frame zip different
        have go : t.top ≠ l.root ∧ l.isRedAt t.top = false :=
          ⟨top_ne_root zip,(isRedAt_top zip.below).trans isRed⟩
        obtain ⟨⟨m,next⟩,turn,turned⟩ := deleteFixupAt_spec zip expects balanced
        have unfolded : deleteFixup (turns + 1) l (some p) t.top =
            next.bind fun x => deleteFixup turns m (m.parent x) (some x) := by
          conv_lhs => unfold deleteFixup
          rw [if_pos go]
          simp [side_eq,turn]
        obtain ⟨turns,rfl⟩ : ∃ n, turns = n + 1 := ⟨turns - 1,by simp at enough; omega⟩
        rw [Path.top,unfolded]
        cases turned with
        | @done _ u zip' valid here same =>
          obtain rfl | ⟨c,x,near,far,rfl⟩ := exists_make .left u
          · exact absurd rfl here
          · have root : m.root = some x := zip'.above.trans top_make
            have black : c = false := by simpa using valid.1
            subst black
            rw [root]
            exact ⟨_,_,deleteFixup_stop (.inl root),zip'.setRed false,valid,same⟩
        | @higher _ t' sibling' red' up' zip' balanced' expects' colour shorter same =>
          rw [bind_some]
          cases red' with
          | true =>
            have whole : Whole up' (.make side false p t' sibling') (b + 1) :=
              ⟨expects',balanced',fun _ => isRed_make⟩
            refine ⟨_,_,deleteFixup_stop (.inr zip'.isRed),(zip'.setRed false).plug,whole.valid,?_⟩
            rw [← same]
            simp only [Path.inorder_plug,inorder_make]
          | false =>
            cases shorter rfl
            obtain ⟨last,u,result,kept,valid,order⟩ := hypothesis zip' expects' balanced'
              (by simp at enough; omega)
            rw [top_make] at result
            exact ⟨last,u,by rw [zip'.parent,result],kept,valid,order.trans same⟩

/-! Taking a node out. -/

/-- A node with at most one child is replaced by that child. -/
theorem splice (zip : Zip l path (.make side red y t .nil)) :
    Zip ((l.reparent t.top path.top).relink .left path.top y t.top) path t := by
  obtain ⟨above,below,distinct⟩ := zip
  rw [top_make] at above
  have apart := distinct_make.mp distinct
  have belowT := (below_make.mp below).2.2.2.2.1
  refine ⟨?_,?_,nodup_append'.mpr ⟨apart.around,apart.nearNodup,apart.aroundNear⟩⟩
  · refine (above.reparent fun a first => ?_).relink apart.around apart.outside
    exact fun member => apart.aroundNear member (top_mem first)
  · refine (belowT.reparent apart.nearNodup).relink fun a first => ?_
    exact fun member => apart.aroundNear (Path.top_mem first) member

/-- A node takes the place of another one. -/
theorem replaceNode_spec (zip : Zip l path (.make .left red z near far)) (outside : y ∉ path.values)
    (notNear : y ∉ near.inorder) (notFar : y ∉ far.inorder) (other : y ≠ z) :
    Zip (replaceNode l z y) path (.make .left red y near far) := by
  obtain ⟨above,below,distinct⟩ := zip
  have apart := distinct_make.mp distinct
  obtain ⟨parent,colour,ofNear,ofFar,belowNear,belowFar⟩ := below_make.mp below
  have noPath : path.top ≠ some z := fun first => apart.outside (Path.top_mem first)
  have noNear : near.top ≠ some y := fun first => notNear (top_mem first)
  have noFar : far.top ≠ some y := fun first => notFar (top_mem first)
  -- every read of a field of `z` gives what it was before
  have whole : replaceNode l z y = ((((((l.setParent y path.top).relink .left path.top z
      (some y)).setRed y red).setChild .left y near.top).reparent near.top (some y)).setChild
        .right y far.top).reparent far.top (some y) := by
    simp [replaceNode,setParent_of_ne other.symm,setChild_of_ne other.symm,relink_of_ne noPath,
      parent,colour,ofNear,show l.child .right z = far.top from ofFar]
  rw [whole]
  refine ⟨?_,below_make.mpr ⟨?_,?_,?_,?_,?_,?_⟩,distinct_make.mpr ⟨apart.around,apart.nearNodup,
    apart.farNodup,outside,notNear,notFar,apart.sides,apart.aroundNear,apart.aroundFar⟩⟩
  · have led : Above ((l.setParent y path.top).relink .left path.top z (some y)) (some y) path :=
      (above.setParent outside).relink apart.around apart.outside
    refine ((((led.setRed outside).setChild outside).reparent fun a first member => ?_).setChild
      outside).reparent fun a first member => ?_
    · exact apart.aroundNear member (top_mem first)
    · exact apart.aroundFar member (top_mem first)
  · simp [reparent_of_ne noFar,reparent_of_ne noNear]
  · simp
  · simp [Links.setChild]
  · simp [Side.other]
  · refine Below.reparent_other (Below.setChild (Below.reparent (Below.setChild (Below.setRed
      (Below.relink (belowNear.setParent notNear) ?_) notNear) notNear) apart.nearNodup) notNear) ?_
    · exact fun a first member => apart.aroundNear (Path.top_mem first) member
    · exact fun a first member => apart.sides member (top_mem first)
  · refine Below.reparent (Below.setChild (Below.reparent_other (Below.setChild (Below.setRed
      (Below.relink (belowFar.setParent notFar) ?_) notFar) notFar) ?_) notFar) apart.farNodup
    · exact fun a first member => apart.aroundFar (Path.top_mem first) member
    · exact fun a first member => apart.sides (top_mem first) member

omit [DecidableEq α] in
/-- The leftmost node of a subtree comes first in it. -/
theorem leftmost_spec (below : Below l q t) (first : t.top = some x) (enough : t.height ≤ turns) :
    ∃ (inner : Path α) (y : α) (red : Bool) (right : BinTree α), leftmost l turns x = some y ∧
      t = inner.plug (.make .left red y .nil right) ∧ inner.before = [] ∧
        inner.length < t.height := by
  induction t generalizing q x turns with
  | nil => cases first
  | node red left value right leftward _ =>
    cases first
    obtain ⟨_,_,ofLeft,_,belowLeft,_⟩ := below
    obtain ⟨turns,rfl⟩ : ∃ n, turns = n + 1 := ⟨turns - 1,by simp [height] at enough; omega⟩
    simp only [height] at enough
    rw [leftmost,ofLeft]
    cases firstLeft : left.top with
    | none =>
      cases top_eq_none.mp firstLeft
      exact ⟨[],value,red,right,rfl,rfl,rfl,Nat.succ_pos _⟩
    | some next =>
      obtain ⟨inner,y,c,rest,found,whole,front,short⟩ := leftward belowLeft firstLeft
        (show left.height ≤ turns by omega)
      refine ⟨inner ++ [⟨.left,red,value,right⟩],y,c,rest,found,?_,?_,?_⟩
      · rw [Path.plug_append,← whole]
        rfl
      · rw [Path.before_append,front]
        rfl
      · simp only [length_append,length_singleton,height]
        omega

/-- What follows once a node of colour `red` has been taken out above `t`. -/
theorem rebalance (zip : Zip l path t) (expects : Expects path (b + weight red))
    (balanced : Balanced t b) (black : red = true → t.isRed = false)
    (enough : path.length + 2 ≤ maxTurns) :
    ∃ m u, (if (!red) = true then deleteFixup maxTurns l path.top t.top else some l) = some m ∧
      Zip m [] u ∧ Valid u ∧ u.inorder = (path.plug t).inorder := by
  cases red with
  | false => exact deleteFixup_spec zip expects balanced enough
  | true =>
    have whole : Whole path t b := ⟨expects,balanced,fun _ => black rfl⟩
    exact ⟨l,_,rfl,zip.plug,whole.valid,rfl⟩

omit [DecidableEq α] in
/-- The balance of a path does not depend on which nodes are on it. -/
theorem expects_replace (inner : Path α) (expects : Expects (inner ++ ⟨side,red,z,t⟩ :: up) b) :
    Expects (inner ++ ⟨side,red,y,t⟩ :: up) b := by
  induction inner generalizing b with
  | nil => exact expects
  | cons f inner hypothesis =>
    obtain ⟨ofSibling,black,rest⟩ := expects
    refine ⟨ofSibling,fun isRed => ⟨(black isRed).1,?_⟩,hypothesis rest⟩
    have top := (black isRed).2
    cases inner <;> exact top

/-- Without two children the node itself is taken out. -/
theorem unlinkLinks_single (zip : Zip l path (.make side red z t .nil))
    (whole : Whole path (.make side red z t .nil) b) (enough : path.length + 2 ≤ maxTurns) :
    ∃ m u, unlinkLinks l z = some m ∧ Zip m [] u ∧ Valid u ∧
      u.inorder = (path.plug t).inorder := by
  obtain ⟨k,rfl⟩ := balanced_weight whole.balanced
  obtain ⟨balanced,_,black⟩ := balanced_make.mp whole.balanced
  obtain ⟨m,u,result,rest⟩ := rebalance (splice zip) whole.expects balanced
    (fun isRed => (black isRed).1) enough
  refine ⟨m,u,?_,rest⟩
  have near := zip.child
  have far := zip.otherChild
  have only : (l.child .left z).or (l.child .right z) = t.top := by
    cases side with
    | left =>
      rw [near,show l.child .right z = none from far,or_none]
    | right =>
      rw [show l.child .left z = none from far,near,none_or]
  have single : victim l z = some z := by
    unfold victim
    cases side with
    | left =>
      rw [show l.child .right z = none from far]
      cases l.child .left z <;> rfl
    | right => rw [show l.child .left z = none from far]
  have apart : t.top ≠ some z := fun first =>
    (distinct_make.mp zip.distinct).notNear (top_mem first)
  rw [unlinkLinks,single]
  simp only [bind_eq_bind,bind_some,unlinkVictim,only,zip.parent,reparent_of_ne apart,
    relink_isRed,reparent_isRed,zip.isRed,ne_eq]
  exact result

/-- With two children the successor is taken out and put in its place. -/
theorem unlinkLinks_double {left right : BinTree α}
    (zip : Zip l path (.make .left red z left right))
    (valid : Valid (path.plug (.make .left red z left right))) (someLeft : left ≠ .nil)
    (someRight : right ≠ .nil) (enough : path.length + right.height + 2 ≤ maxTurns) :
    ∃ m u, unlinkLinks l z = some m ∧ Zip m [] u ∧ Valid u ∧
      u.inorder = path.before ++ (left.inorder ++ right.inorder) ++ path.after := by
  obtain ⟨first,ofLeft⟩ := ne_none_iff_exists'.mp (mt top_eq_none.mp someLeft)
  obtain ⟨next,ofRight⟩ := ne_none_iff_exists'.mp (mt top_eq_none.mp someRight)
  have belowRight := (below_make.mp zip.below).2.2.2.2.2
  obtain ⟨inner,y,c,rest,found,rfl,front,short⟩ := leftmost_spec belowRight ofRight
    (show right.height ≤ maxTurns by omega)
  have chosen : victim l z = some y := by
    rw [victim,zip.child,show l.child .right z = _ from zip.otherChild,ofLeft,ofRight]
    exact found
  -- the successor in focus
  have frames : ∀ (a : α) (t : BinTree α), path.plug (.make .left red a left (inner.plug t)) =
      Path.plug (inner ++ ⟨.right,red,a,left⟩ :: path) t := fun a t => by
    rw [Path.plug_append]
    rfl
  have move : ∀ (l : Links α) (a : α) (t : BinTree α),
      Zip l path (.make .left red a left (inner.plug t)) ↔
        Zip l (inner ++ ⟨.right,red,a,left⟩ :: path) t := fun l a t => by
    rw [zip_plug,← zip_make]
    rfl
  have focus := (move l z _).mp zip
  rw [← make_other] at focus
  have spliced := splice focus
  rw [frames,← make_other] at valid
  obtain ⟨b,whole⟩ := valid.whole
  obtain ⟨k,rfl⟩ := balanced_weight whole.balanced
  obtain ⟨balanced,_,black⟩ := balanced_make.mp whole.balanced
  have apart := distinct_make.mp focus.distinct
  have outside := apart.outside
  rw [Path.values_append,Path.values,cons_append,mem_append,mem_cons,
    mem_append,not_or,not_or,not_or] at outside
  obtain ⟨notInner,other,notLeft,notPath⟩ := outside
  have notRest : y ∉ (inner.plug rest).inorder := by
    rw [(Path.plug_perm inner rest).mem_iff,mem_append,not_or]
    exact ⟨notInner,apart.notNear⟩
  have replaced := (move _ y _).mp (replaceNode_spec ((move _ z _).mpr spliced) notPath notLeft
    notRest other)
  obtain ⟨m,u,result,kept,valid',order⟩ := rebalance replaced (expects_replace inner whole.expects)
    balanced (fun isRed => (black isRed).1) (by simp; omega)
  refine ⟨m,u,?_,kept,valid',?_⟩
  · have only : (l.child .left y).or (l.child .right y) = rest.top := by
      rw [show l.child .left y = none from focus.otherChild]
      exact focus.child
    have apartRest : rest.top ≠ some y := fun first => apart.notNear (top_mem first)
    have parents : (if (inner ++ ⟨.right,red,z,left⟩ :: path : Path α).top = some z then some y
        else (inner ++ ⟨.right,red,z,left⟩ :: path : Path α).top) =
          (inner ++ ⟨.right,red,y,left⟩ :: path : Path α).top := by
      cases inner with
      | nil => exact if_pos rfl
      | cons g inner =>
        refine if_neg fun same => ?_
        cases same
        have twice := apart.around
        rw [Path.values_append,nodup_append'] at twice
        exact twice.2.2 (mem_cons_self ..) (mem_cons_self ..)
    rw [unlinkLinks,chosen]
    simp only [bind_eq_bind,bind_some,unlinkVictim,only,focus.parent,
      reparent_of_ne apartRest,relink_isRed,reparent_isRed,focus.isRed,ne_eq,other,parents]
    exact result
  · rw [order,Path.inorder_plug,Path.before_append,Path.after_append]
    simp [Path.before,Path.after,Path.inorder_plug,front,make,inorder]

theorem Inv.unlink {s : State α} (inv : Inv s t) (member : z ∈ t.inorder) :
    ∃ l u front back, btreeUnlink s z = some ({ s with links := l },.ok) ∧
      Inv { s with links := l } u ∧ t.inorder = front ++ z :: back ∧
        u.inorder = front ++ back := by
  obtain ⟨path,red,left,right,rfl,depth⟩ := exists_plug member
  have zip : Zip s.links path (.make .left red z left right) := by
    rw [← append_nil path,zip_plug]
    exact inv.zip
  have height := inv.height_le
  rw [height_make] at depth
  have short : path.length + right.height + 2 ≤ 256 := by omega
  have removed : ∃ m u, unlinkLinks s.links z = some m ∧ Zip m [] u ∧ Valid u ∧
      u.inorder = path.before ++ (left.inorder ++ right.inorder) ++ path.after := by
    by_cases someLeft : left = .nil
    · subst someLeft
      rw [← make_other] at zip
      have valid := inv.valid
      obtain ⟨b,whole⟩ := valid.whole
      obtain ⟨m,u,result,kept,valid',order⟩ := unlinkLinks_single zip whole
        (show path.length + 2 ≤ 256 by omega)
      exact ⟨m,u,result,kept,valid',order.trans (Path.inorder_plug ..)⟩
    · by_cases someRight : right = .nil
      · subst someRight
        obtain ⟨b,whole⟩ := inv.valid.whole
        obtain ⟨m,u,result,kept,valid',order⟩ := unlinkLinks_single zip whole
          (show path.length + 2 ≤ 256 by omega)
        refine ⟨m,u,result,kept,valid',order.trans ?_⟩
        rw [Path.inorder_plug,inorder,append_nil]
      · exact unlinkLinks_double zip inv.valid someLeft someRight short
  obtain ⟨m,u,result,kept,valid,order⟩ := removed
  have before : (path.plug (.make .left red z left right)).inorder =
      (path.before ++ left.inorder) ++ z :: (right.inorder ++ path.after) := by
    rw [Path.inorder_plug]
    simp [make,inorder]
  have after : u.inorder = (path.before ++ left.inorder) ++ (right.inorder ++ path.after) := by
    rw [order]
    simp
  have fewer : u.inorder.Sublist (path.plug (.make .left red z left right)).inorder := by
    rw [before,after]
    exact List.Sublist.append_left (sublist_cons_self _ _) _
  refine ⟨m,u,_,_,?_,⟨kept,valid,⟨inv.ordered.increasing.sublist fewer,fun a here =>
    inv.ordered.proper a (fewer.subset here)⟩,fun a here => inv.small a (fewer.subset here)⟩,
      before,after⟩
  simp [btreeUnlink,result]

end GpuExt.Btree

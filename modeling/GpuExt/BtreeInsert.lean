import GpuExt.Btree
import GpuExt.RedBlack
import Mathlib.Data.Finset.Card
import Mathlib.Data.Finset.Range

/-! Insertion keeps the tree a red-black tree. -/
namespace GpuExt.Btree

open LinkedTree RedBlack List Option BinTree

variable {α : Type} [DecidableEq α] {l m : Links α} {path up : Path α} {f g : Frame α}
  {t near far sibling uncle : BinTree α} {side side' : Side} {red : Bool} {x y parent grandparent : α}
  {b turns : Nat}

omit [DecidableEq α] in
theorem isRedAt_top {p : Option α} (below : Below l p t) : l.isRedAt t.top = t.isRed := by
  cases t with
  | nil => rfl
  | node red left value right => exact below.2.1

theorem rotateTo_eq (side : Side) (l : Links α) (x : α) : rotateTo side l x = l.rotate side x := by
  cases side <;> rfl

theorem sideOf_frame (zip : Zip l (f :: up) t) (different : t.top ≠ f.sibling.top) :
    sideOf l f.value t.top = f.side := by
  obtain ⟨_,_,near,far,_,_⟩ := zip.above
  unfold sideOf
  cases side : f.side with
  | left =>
    rw [side] at near
    rw [if_pos near.symm]
  | right =>
    rw [side] at far
    rw [show l.child .left f.value = _ from far,if_neg different]

omit [DecidableEq α] in
/-- A child of a node is not its other child. -/
theorem top_ne_sibling (zip : Zip l (f :: up) t) (first : t.top = some x) :
    t.top ≠ f.sibling.top := by
  intro same
  refine zip.outside (top_mem first) (mem_cons_of_mem _ (mem_append_left _ ?_))
  exact top_mem (same.symm.trans first)

/-- The root of a whole tree is black already. -/
theorem blackenRoot_valid (zip : Zip l [] t) (valid : Valid t) (here : x ∈ t.inorder) :
    ∃ m, blackenRoot l = some m ∧ Zip m [] t := by
  obtain rfl | ⟨red,a,near,far,rfl⟩ := exists_make .left t
  · cases here
  · have black : red = false := by simpa using valid.1
    subst black
    have root : l.root = some a := zip.above.trans top_make
    exact ⟨l.setRed a false,by simp [blackenRoot,root],zip.setRed false⟩

/-- With a red uncle the red node is two levels up. -/
theorem recolour {s : Side} (zip : Zip l (⟨side,true,parent,sibling⟩ ::
      ⟨side',false,grandparent,.make s true y near far⟩ :: up) t) :
    Zip (((l.setRed parent false).setRed y false).setRed grandparent true) up
      (.make side' true grandparent (.make side false parent t sibling)
        (.make s false y near far)) := by
  have first := zip_make.mpr (zip.setRed_frame false)
  exact zip_make.mpr ((first.setRed_sibling false).setRed_frame true)

/-- A red inner grandchild becomes an outer one. -/
theorem straighten_spec (zip : Zip l (⟨side',true,parent,sibling⟩ :: f :: up) t)
    (first : t.top = some x) (isRed : t.isRed = true) (balanced : Balanced t b)
    (ofSibling : Balanced sibling b) (black : sibling.isRed = false) :
    ∃ m y p u v, insertFixup.straighten l side parent x = some (m,y) ∧
      Zip m (⟨side,true,p,v⟩ :: f :: up) u ∧ u.top = some y ∧ u.isRed = true ∧ Balanced u b ∧
        Balanced v b ∧ v.isRed = false ∧
          (make side true p u v).inorder = (make side' true parent t sibling).inorder := by
  obtain ⟨_,_,ofParent,otherChild,_,_⟩ := zip.above
  rcases side.eq_or_other side' with rfl | rfl
  · have outer : some x ≠ l.child side'.other parent := by
      rw [otherChild,← first]
      exact top_ne_sibling zip first
    exact ⟨l,x,parent,t,sibling,if_neg outer,zip,first,isRed,balanced,ofSibling,black,rfl⟩
  · obtain ⟨value,near,far,rfl⟩ := exists_red side isRed
    rw [top_make] at first
    cases first
    have turned := zip_make.mpr zip
    rw [make_other] at turned ⊢
    obtain ⟨m,result,rotated⟩ := turned.rotate
    obtain ⟨ofNear,ofFar,blackNear,blackFar⟩ := balanced_red.mp balanced
    have inner : some x = l.child side.other parent := by
      rw [ofParent,top_make]
    refine ⟨m,parent,x,_,far,?_,zip_make.mp rotated,top_make,isRed_make,
      balanced_red.mpr ⟨ofSibling,ofNear,black,blackNear⟩,ofFar,blackFar,
        by simp only [inorder_make,Side.join_assoc]⟩
    rw [insertFixup.straighten,if_pos inner,rotateTo_eq,result]
    rfl

/-- The red parent takes the place of the grandparent. -/
theorem lift_spec (zip : Zip l (⟨side,true,parent,sibling⟩ ::
      ⟨side,false,grandparent,uncle⟩ :: up) t) (first : t.top = some x) :
    ∃ m, insertFixup.lift l side x = some m ∧
      Zip m (⟨side,false,parent,.make side true grandparent sibling uncle⟩ :: up) t := by
  have above : l.parent x = some parent := zip.parent_top first
  have coloured := (zip_make.mpr (zip.setRed_frame false)).setRed_frame true
  have higher : (l.setRed parent false).parent parent = some grandparent := zip.above.1
  have focus := zip_make.mpr coloured
  rw [← make_other side true,← make_other side false] at focus
  obtain ⟨m,result,rotated⟩ := focus.rotate
  rw [make_other,make_other] at rotated
  refine ⟨m,?_,zip_make.mp rotated⟩
  simp only [insertFixup.lift,above,higher,bind_eq_bind,bind_some,rotateTo_eq,result]

/-- Under a black parent only the root is left to blacken. -/
theorem insertFixup_black (zip : Zip l (f :: up) t) (first : t.top = some x) (black : f.red = false)
    (whole : Whole (f :: up) t b) :
    ∃ m, insertFixup (turns + 1) l x = some m ∧ Zip m [] (Path.plug (f :: up) t) := by
  have here := top_mem first
  obtain ⟨m,result,kept⟩ := blackenRoot_valid zip.plug whole.valid (Path.mem_plug _ here)
  refine ⟨m,?_,kept⟩
  simp [insertFixup,zip.parent_top first,Path.top,zip.above.2.1,black,result]

theorem insertFixup_spec (zip : Zip l path t) (first : t.top = some x) (isRed : t.isRed = true)
    (expects : Expects path b) (balanced : Balanced t b) (enough : path.length + 2 ≤ turns) :
    ∃ m u, insertFixup turns l x = some m ∧ Zip m [] u ∧ Valid u ∧
      u.inorder = (path.plug t).inorder := by
  induction turns generalizing l path t x b with
  | zero => omega
  | succ turns hypothesis =>
    have here : x ∈ t.inorder := top_mem first
    cases path with
    | nil =>
      obtain ⟨value,near,far,rfl⟩ := exists_red .left isRed
      cases first
      have root : l.root = some x := zip.above.trans top_make
      obtain ⟨ofNear,ofFar,_,_⟩ := balanced_red.mp balanced
      refine ⟨l.setRed x false,_,?_,zip.setRed false,
        ⟨isRed_make,b + 1,balanced_black_succ.mpr ⟨ofNear,ofFar⟩⟩,rfl⟩
      rw [insertFixup,if_pos root.symm,blackenRoot,root]
      rfl
    | cons f up =>
      have notRoot : some x ≠ l.root := (zip.root here).symm
      have above : l.parent x = some f.value := zip.parent_top first
      have colour : l.isRed f.value = f.red := zip.above.2.1
      cases redParent : f.red with
      | false =>
        have whole : Whole (f :: up) t b := by
          refine ⟨expects,balanced,fun top => ?_⟩
          rw [topRed,redParent] at top
          cases top
        obtain ⟨m,result,kept⟩ := insertFixup_black zip first redParent whole
        exact ⟨m,_,result,kept,whole.valid,rfl⟩
      | true =>
        obtain ⟨ofSibling,black,rest⟩ := expects
        obtain ⟨blackSibling,blackUp⟩ := black redParent
        obtain ⟨side',_,parent,sibling⟩ := f
        cases redParent
        cases up with
        | nil => cases blackUp
        | cons g up =>
          obtain ⟨side,_,grandparent,uncle⟩ := g
          cases blackUp
          have higher : l.parent parent = some grandparent := zip.above.1
          have focus := zip_make.mpr zip
          have side_eq : sideOf l grandparent (some parent) = side := by
            have found := sideOf_frame focus (top_ne_sibling focus top_make)
            rwa [top_make] at found
          have ofUncle : Balanced uncle b := rest.1
          have ofUp : Expects up (b + 1) := rest.2.2
          have uncle_eq : l.child side.other grandparent = uncle.top := focus.above.2.2.2.1
          have uncleRed : l.isRedAt uncle.top = uncle.isRed := isRedAt_top focus.above.2.2.2.2.1
          cases redUncle : uncle.isRed with
          | true =>
            obtain ⟨y,near,far,rfl⟩ := exists_red .left redUncle
            rw [top_make] at uncle_eq uncleRed
            obtain ⟨ofNear,ofFar,_,_⟩ := balanced_red.mp ofUncle
            obtain ⟨m,u,result,kept,valid,same⟩ := hypothesis (recolour zip) top_make
              isRed_make ofUp (balanced_red.mpr ⟨balanced_black_succ.mpr
                ⟨balanced,ofSibling⟩,balanced_black_succ.mpr ⟨ofNear,ofFar⟩,isRed_make,
                  isRed_make⟩) (by simp at enough; omega)
            refine ⟨m,u,?_,kept,valid,?_⟩
            · simp [insertFixup,if_neg notRoot,above,colour,higher,side_eq,uncle_eq,uncleRed,result]
            · rw [same]
              simp only [Path.plug,Path.inorder_plug,Frame.fill,inorder_make]
          | false =>
            obtain ⟨m,x',p,u,v,straight,zip',first',isRed',balanced',ofV,blackV,order⟩ :=
              straighten_spec zip first isRed balanced ofSibling blackSibling
            obtain ⟨m',lifted,zip''⟩ := lift_spec zip' first'
            have whole : Whole (⟨side,false,p,.make side true grandparent v uncle⟩ :: up) u b := by
              exact ⟨⟨balanced_red.mpr ⟨ofV,ofUncle,blackV,redUncle⟩,by simp,ofUp⟩,balanced',by rintro ⟨⟩⟩
            obtain ⟨turns,rfl⟩ : ∃ n, turns = n + 1 := ⟨turns - 1,by simp at enough; omega⟩
            obtain ⟨last,result,kept⟩ := insertFixup_black zip'' first' rfl whole
            refine ⟨last,_,?_,kept,whole.valid,?_⟩
            · rw [insertFixup,if_neg notRoot]
              simp only [above,bind_eq_bind,bind_some,colour,higher,side_eq,
                uncle_eq,uncleRed,redUncle,straight,lifted]
              exact result
            · simp only [Path.plug,Path.inorder_plug,Frame.fill,inorder_make,← order,
                Side.join_assoc]

/-! Intervals in order. -/

variable {s : State α} {xs ys : List α} {low high : Nat}

/-- Disjoint intervals, from left to right. -/
structure Ordered (s : State α) (xs : List α) : Prop where
  increasing : xs.Pairwise fun a b => s.keyEnd a < s.keyStart b
  proper : ∀ a ∈ xs, s.keyStart a ≤ s.keyEnd a

/-- The interval `[low, high]` belongs in the place where the path ends. -/
structure Fits (s : State α) (low high : Nat) (path : Path α) : Prop where
  before : ∀ a ∈ path.before, s.keyEnd a < low
  after : ∀ a ∈ path.after, high < s.keyStart a

omit [DecidableEq α] in
theorem Ordered.split {a : α} (ordered : Ordered s (xs ++ a :: ys)) :
    Ordered s xs ∧ Ordered s ys ∧ (∀ c ∈ xs, s.keyEnd c < s.keyStart a) ∧
      (∀ c ∈ ys, s.keyEnd a < s.keyStart c) ∧ s.keyStart a ≤ s.keyEnd a := by
  obtain ⟨ofXs,rest,cross⟩ := pairwise_append.mp ordered.increasing
  obtain ⟨first,ofYs⟩ := pairwise_cons.mp rest
  refine ⟨⟨ofXs,fun c member => ordered.proper c (mem_append_left _ member)⟩,
    ⟨ofYs,fun c member => ordered.proper c (by simp [member])⟩,
    fun c member => cross c member a (mem_cons_self ..),first,
    ordered.proper a (by simp)⟩

omit [DecidableEq α] in
theorem Ordered.insert (ordered : Ordered s (xs ++ ys))
    (before : ∀ a ∈ xs, s.keyEnd a < s.keyStart x) (after : ∀ a ∈ ys, s.keyEnd x < s.keyStart a)
    (proper : s.keyStart x ≤ s.keyEnd x) : Ordered s (xs ++ x :: ys) := by
  obtain ⟨ofXs,ofYs,cross⟩ := pairwise_append.mp ordered.increasing
  refine ⟨pairwise_append.mpr ⟨ofXs,pairwise_cons.mpr ⟨after,ofYs⟩,?_⟩,?_⟩
  · intro a member b other
    rcases mem_cons.mp other with rfl | behind
    · exact before a member
    · exact cross a member b behind
  · intro a member
    rw [mem_append,mem_cons,or_left_comm,← mem_append] at member
    rcases member with rfl | old
    · exact proper
    · exact ordered.proper a old

/-- A node that the interval meets, or the place where it belongs. -/
inductive Descent (s : State α) (low high : Nat) (path : Path α) (t : BinTree α) :
    Option α × Option α → Prop where
  | hit {a : α} {p : Option α} (member : a ∈ t.inorder) (start : s.keyStart a ≤ high)
      (stop : low ≤ s.keyEnd a) : Descent s low high path t (some a,p)
  | gap {inner : Path α} (whole : inner.plug .nil = t) (fits : Fits s low high (inner ++ path))
      (short : inner.length ≤ t.height) : Descent s low high path t (none,(inner ++ path).top)

omit [DecidableEq α] in
theorem Descent.fill {result : Option α × Option α} (descent : Descent s low high (f :: path) t result) :
    Descent s low high path (f.fill t) result := by
  cases descent with
  | hit member start stop => exact .hit (by simp [Frame.fill,member]) start stop
  | @gap inner whole fits short =>
    have regroup : inner ++ f :: path = (inner ++ [f]) ++ path := by simp
    rw [regroup] at fits ⊢
    refine .gap ?_ fits ?_
    · rw [Path.plug_append,whole]
      rfl
    · rw [Frame.fill,height_make,length_append,length_singleton]
      omega

omit [DecidableEq α] in
theorem descend_spec {p : Option α} (below : Below s.links p t) (ordered : Ordered s t.inorder)
    (fits : Fits s low high path) (enough : t.height ≤ turns) :
    ∃ result, descend s low high turns t.top path.top = some result ∧
      Descent s low high path t result := by
  induction t generalizing path turns p with
  | nil =>
    refine ⟨(none,path.top),by simp [top,descend],?_⟩
    exact @Descent.gap _ s low high path .nil [] rfl fits (Nat.le_refl 0)
  | node red left value right leftward rightward =>
    obtain ⟨turns,rfl⟩ : ∃ n, turns = n + 1 := ⟨turns - 1,by simp [height] at enough; omega⟩
    obtain ⟨_,_,ofLeft,ofRight,belowLeft,belowRight⟩ := below
    obtain ⟨orderedLeft,orderedRight,beforeValue,afterValue,here⟩ := ordered.split
    simp only [height] at enough
    simp only [top,descend]
    split
    next lower =>
      have fits' : Fits s low high (⟨.left,red,value,right⟩ :: path) := by
        refine ⟨fits.before,fun a member => ?_⟩
        simp only [Path.after,cons_append,mem_cons,mem_append] at member
        rcases member with rfl | inside | above
        · exact lower
        · have := afterValue a inside
          omega
        · exact fits.after a above
      obtain ⟨result,found,descent⟩ := leftward belowLeft orderedLeft fits'
        (show left.height ≤ turns by omega)
      exact ⟨result,by rwa [ofLeft],descent.fill⟩
    · split
      next upper =>
        have fits' : Fits s low high (⟨.right,red,value,left⟩ :: path) := by
          refine ⟨fun a member => ?_,fits.after⟩
          simp only [Path.before,mem_append,mem_singleton] at member
          rcases member with (above | inside) | rfl
          · exact fits.before a above
          · have := beforeValue a inside
            omega
          · exact upper
        obtain ⟨result,found,descent⟩ := rightward belowRight orderedRight fits'
          (show right.height ≤ turns by omega)
        exact ⟨result,by rwa [ofRight],descent.fill⟩
      next notBelow notAbove =>
        refine ⟨_,rfl,.hit (by simp [inorder]) ?_ ?_⟩
        · omega
        · omega

theorem linkNode_spec (zip : Zip s.links path .nil) (fresh : x ∉ path.values)
    (fits : Fits s (s.keyStart x) (s.keyEnd x) path) (proper : s.keyStart x ≤ s.keyEnd x)
    (ordered : ∀ a ∈ path.values, s.keyStart a ≤ s.keyEnd a) :
    Zip (linkNode s x path.top) path (.make .left true x .nil .nil) := by
  obtain ⟨above,_,distinct⟩ := zip
  have nodup : path.values.Nodup := (nodup_append'.mp distinct).1
  have distinct' : (path.values ++ (make .left true x .nil .nil).inorder).Nodup :=
    distinct_make.mpr ⟨nodup,nodup_nil,nodup_nil,fresh,not_mem_nil,not_mem_nil,
      disjoint_nil_right _,disjoint_nil_right _,disjoint_nil_right _⟩
  set l := (((s.links.setParent x path.top).setChild .left x none).setChild .right x none).setRed x
    true with l_eq
  have above' : Above l none path :=
    (((above.setParent fresh).setChild fresh).setChild fresh).setRed fresh
  have below : Below l path.top (.make .left true x .nil .nil) := by
    refine below_make.mpr ⟨?_,?_,?_,?_,trivial,trivial⟩
    · simp [l_eq]
    · simp [l_eq]
    · simp [l_eq,Links.setChild,top]
    · simp [l_eq,Side.other,top]
  cases path with
  | nil => exact ⟨rfl,below.congr fun _ _ => ⟨rfl,fun _ => rfl,rfl⟩,distinct'⟩
  | cons f up =>
    have here : f.value ∈ Path.values (f :: up) := mem_cons_self ..
    have linked : linkNode s x (some f.value) = l.setChild f.side f.value (some x) := by
      obtain ⟨side,red,value,sibling⟩ := f
      have own : s.keyStart value ≤ s.keyEnd value := ordered value here
      cases side with
      | left =>
        have after := fits.after value (mem_cons_self ..)
        exact if_pos after
      | right =>
        have before := fits.before value (by simp [Path.before])
        exact if_neg (show ¬ s.keyEnd x < s.keyStart value by omega)
    rw [Path.top,linked]
    refine ⟨above'.lead nodup,below.setChild ?_,distinct'⟩
    have other : f.value ≠ x := ne_of_mem_of_not_mem here fresh
    simpa [inorder] using other

structure Inv (s : State α) (t : BinTree α) : Prop where
  zip : Zip s.links [] t
  valid : Valid t
  ordered : Ordered s t.inorder
  small : ∀ a ∈ t.inorder, s.keyEnd a < 2 ^ 64

omit [DecidableEq α] in
theorem Ordered.length_le (ordered : Ordered s xs) (small : ∀ a ∈ xs, s.keyEnd a < 2 ^ 64) :
    xs.length ≤ 2 ^ 64 := by
  have increasing : (xs.map s.keyStart).Pairwise (· < ·) := by
    refine pairwise_map.mpr (List.Pairwise.imp_of_mem ?_ ordered.increasing)
    intro a b member _ before
    exact Nat.lt_of_le_of_lt (ordered.proper a member) before
  have nodup : (xs.map s.keyStart).Nodup := increasing.imp Nat.ne_of_lt
  have inside : (xs.map s.keyStart).toFinset ⊆ Finset.range (2 ^ 64) := by
    intro key member
    obtain ⟨a,here,rfl⟩ := mem_map.mp (mem_toFinset.mp member)
    exact Finset.mem_range.mpr (Nat.lt_of_le_of_lt (ordered.proper a here) (small a here))
  have card := Finset.card_le_card inside
  rwa [toFinset_card_of_nodup nodup,length_map,Finset.card_range] at card

omit [DecidableEq α] in
/-- 64-bit keys leave no room for a deeper tree. -/
theorem Inv.height_le (inv : Inv s t) : t.height ≤ 128 := by
  have few := inv.ordered.length_le inv.small
  have log : Nat.log 2 (t.inorder.length + 1) ≤ 64 := by
    refine Nat.lt_succ_iff.mp (Nat.log_lt_of_lt_pow (by omega) ?_)
    omega
  have := inv.valid.height_le
  omega

def Meets (s : State α) (a b : α) : Prop :=
  s.keyStart a ≤ s.keyEnd b ∧ s.keyStart b ≤ s.keyEnd a

theorem Inv.insert_improper (improper : s.keyEnd x < s.keyStart x) :
    btreeInsert s x = some (s,.invalidArgument) :=
  if_pos improper

omit [DecidableEq α] in
theorem Inv.descend (inv : Inv s t) (low high : Nat) :
    ∃ result, Btree.descend s low high maxTurns s.links.root none = some result ∧
      Descent s low high [] t result := by
  have root : s.links.root = t.top := inv.zip.above
  rw [root]
  have everywhere : Fits s low high ([] : Path α) := ⟨nofun,nofun⟩
  have enough : t.height ≤ maxTurns := inv.height_le.trans (by decide)
  exact descend_spec inv.zip.below inv.ordered everywhere enough

omit [DecidableEq α] in
/-- In a gap nothing meets the interval. -/
theorem Fits.apart {inner : Path α} (fits : Fits s low high inner) {a : α}
    (member : a ∈ (inner.plug .nil).inorder) : s.keyEnd a < low ∨ high < s.keyStart a := by
  rw [Path.inorder_plug,inorder,append_nil,mem_append] at member
  exact member.imp (fits.before a) (fits.after a)

theorem Inv.insert_overlapping (inv : Inv s t) (proper : s.keyStart x ≤ s.keyEnd x)
    {a : α} (member : a ∈ t.inorder) (meets : Meets s x a) :
    btreeInsert s x = some (s,.insertDuplicateName) := by
  obtain ⟨result,found,descent⟩ := inv.descend (s.keyStart x) (s.keyEnd x)
  cases descent with
  | hit _ _ _ => simp [btreeInsert,Nat.not_lt_of_le proper,found]
  | gap whole fits _ =>
    rw [← whole] at member
    rw [append_nil] at fits
    have apart := fits.apart member
    have := meets.1
    have := meets.2
    omega

theorem Inv.insert (inv : Inv s t) (fresh : x ∉ t.inorder) (small : s.keyEnd x < 2 ^ 64)
    (proper : s.keyStart x ≤ s.keyEnd x) (apart : ∀ a ∈ t.inorder, ¬ Meets s x a) :
    ∃ l u front back, btreeInsert s x = some ({ s with links := l },.ok) ∧
      Inv { s with links := l } u ∧ t.inorder = front ++ back ∧
        u.inorder = front ++ x :: back := by
  obtain ⟨result,found,descent⟩ := inv.descend _ _
  cases descent with
  | hit member start stop => exact absurd ⟨stop,start⟩ (apart _ member)
  | @gap inner whole fits short =>
    rw [append_nil] at fits found
    have zip : Zip s.links inner .nil := by
      have focus := inv.zip
      rw [← whole] at focus
      simpa using (zip_plug inner).mpr focus
    have values : ∀ a, a ∈ inner.values ↔ a ∈ t.inorder := by
      intro a
      rw [← whole,(Path.plug_perm inner .nil).mem_iff,inorder,append_nil]
    have valid := inv.valid
    rw [← whole] at valid
    obtain ⟨b,expects,empty,_⟩ := valid.whole
    cases empty
    have linked := linkNode_spec zip (fun member => fresh ((values x).mp member)) fits proper
      fun a member => inv.ordered.proper a ((values a).mp member)
    have single : Balanced (.make .left true x .nil .nil) 0 := balanced_red.mpr ⟨.nil,.nil,rfl,rfl⟩
    have enough : inner.length + 2 ≤ maxTurns :=
      (Nat.add_le_add_right (short.trans inv.height_le) 2).trans (by decide)
    obtain ⟨l,u,result,kept,valid',order⟩ := insertFixup_spec linked top_make isRed_make
      expects single enough
    have before : t.inorder = inner.before ++ inner.after := by
      rw [← whole,Path.inorder_plug,inorder,append_nil]
    have after : u.inorder = inner.before ++ x :: inner.after := by
      rw [order,Path.inorder_plug]
      simp [make,inorder]
    refine ⟨l,u,inner.before,inner.after,?_,⟨kept,valid',?_,?_⟩,before,after⟩
    · simp [btreeInsert,Nat.not_lt_of_le proper,found,result]
    · have ordered : Ordered s (inner.before ++ inner.after) := before ▸ inv.ordered
      have inserted := ordered.insert fits.before fits.after proper
      rw [after]
      exact ⟨inserted.increasing,inserted.proper⟩
    · intro a member
      rw [after,mem_append,mem_cons,or_left_comm,← mem_append,← before] at member
      rcases member with rfl | old
      · exact small
      · exact inv.small a old

end GpuExt.Btree

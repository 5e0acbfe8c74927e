import GpuExt.BtreeUnlink

/-! Searching and enumerating the tree, and sequences of calls. What the tree is for is a sorted
list of disjoint intervals; every sequence of calls on the linked tree gives what the list
gives. -/
namespace GpuExt.Btree

open Function List
open LinkedTree RedBlack

variable {α : Type} {s : State α} {p : Option α} {t left right : BinTree α} {path : Path α} {red : Bool}
  {a x : α} {xs : List α} {key turns : Nat}

def contains (s : State α) (key : Nat) (a : α) : Bool := s.keyStart a ≤ key ∧ key ≤ s.keyEnd a

theorem contains_iff : contains s key a = true ↔ s.keyStart a ≤ key ∧ key ≤ s.keyEnd a :=
  decide_eq_true_iff

/-- At most one interval of a list in order contains a key. -/
theorem Ordered.find_eq (ordered : Ordered s xs) (member : a ∈ xs)
    (here : contains s key a = true) : xs.find? (contains s key) = some a := by
  obtain ⟨front,back,rfl⟩ := append_of_mem member
  obtain ⟨_,_,before,_,_⟩ := ordered.split
  have nowhere : front.find? (contains s key) = none := by
    refine find?_eq_none.mpr fun c earlier => ?_
    have := before c earlier
    have := contains_iff.mp here
    rw [contains_iff]
    omega
  rw [find?_append,nowhere,Option.none_or,find?_cons,here]

theorem Inv.search (inv : Inv s t) (key : Nat) :
    btreeSearch s key = some (t.inorder.find? (contains s key),
      if (t.inorder.find? (contains s key)).isSome then .ok else .objectNotFound) := by
  obtain ⟨⟨found,parent⟩,result,descent⟩ := inv.descend key key
  have same : t.inorder.find? (contains s key) = found := by
    cases descent with
    | hit member start stop => exact inv.ordered.find_eq member (contains_iff.mpr ⟨start,stop⟩)
    | gap whole fits _ =>
      refine find?_eq_none.mpr fun a member => ?_
      rw [← whole] at member
      rw [append_nil] at fits
      have apart := fits.apart member
      rw [contains_iff]
      omega
  rw [btreeSearch,result,same]
  rfl

/-! Enumeration. -/

def endsAfter (s : State α) (key : Nat) (a : α) : Bool := key ≤ s.keyEnd a

theorem endsAfter_iff : endsAfter s key a = true ↔ key ≤ s.keyEnd a := decide_eq_true_iff

theorem Ordered.suffix (ordered : Ordered s xs) (key : Nat) :
    ∃ front, xs = front ++ xs.filter (endsAfter s key) := by
  induction xs with
  | nil => exact ⟨[],rfl⟩
  | cons a xs hypothesis =>
    obtain ⟨_,rest,_,after,_⟩ := Ordered.split (show Ordered s ([] ++ a :: xs) from ordered)
    by_cases kept : endsAfter s key a = true
    · refine ⟨[],(filter_eq_self.mpr fun c member => ?_).symm⟩
      rcases mem_cons.mp member with rfl | later
      · exact kept
      · have behind := after c later
        have own := rest.proper c later
        exact endsAfter_iff.mpr ((endsAfter_iff.mp kept).trans (behind.le.trans own))
    · obtain ⟨front,whole⟩ := hypothesis rest
      refine ⟨a :: front,?_⟩
      rw [filter_cons_of_neg kept,cons_append,← whole]

theorem enumStartFrom_spec {p : Option α} (below : Below s.links p t)
    (ordered : Ordered s t.inorder) (enough : t.height ≤ turns) (node : Option α) :
    enumStartFrom s key turns t.top node = some ((t.inorder.filter (endsAfter s key)).head?.or node) := by
  induction t generalizing turns p node with
  | nil => simp [BinTree.top,enumStartFrom,BinTree.inorder]
  | node red left value right leftward rightward =>
    obtain ⟨turns,rfl⟩ : ∃ n, turns = n + 1 := ⟨turns - 1,by simp [BinTree.height] at enough; omega⟩
    obtain ⟨_,_,ofLeft,ofRight,belowLeft,belowRight⟩ := below
    obtain ⟨orderedLeft,orderedRight,beforeValue,afterValue,here⟩ := ordered.split
    simp only [BinTree.height] at enough
    rw [show (BinTree.node red left value right).top = some value from rfl,enumStartFrom,ofLeft,
      ofRight,BinTree.inorder,filter_append]
    split
    next lower =>
      have kept : endsAfter s key value = true := endsAfter_iff.mpr (by omega)
      rw [leftward belowLeft orderedLeft (show left.height ≤ turns by omega),
        filter_cons_of_pos kept,head?_append,Option.or_assoc]
      rfl
    · have dropped : left.inorder.filter (endsAfter s key) = [] := by
        refine filter_eq_nil_iff.mpr fun c member => ?_
        have := beforeValue c member
        rw [endsAfter_iff]
        omega
      rw [dropped,nil_append]
      split
      next upper =>
        have gone : ¬ endsAfter s key value = true := by
          rw [endsAfter_iff]
          omega
        rw [rightward belowRight orderedRight (show right.height ≤ turns by omega),
          filter_cons_of_neg gone]
      next inside =>
        rw [filter_cons_of_pos (endsAfter_iff.mpr (by omega))]
        rfl

theorem Inv.enumStart (inv : Inv s t) (key : Nat) :
    btreeEnumStart s key = some (t.inorder.filter (endsAfter s key)).head? := by
  have root : s.links.root = t.top := inv.zip.above
  rw [btreeEnumStart,root,enumStartFrom_spec inv.zip.below inv.ordered
    (show t.height ≤ maxTurns from inv.height_le.trans (by decide)),Option.or_none]

/-- Going up from a subtree that the key is in. -/
theorem climb_spec (above : Above s.links p path) (before : ∀ a ∈ path.before, s.keyStart a ≤ key)
    (after : ∀ a ∈ path.after, key < s.keyStart a) (enough : path.length ≤ turns) :
    climb s key turns path.top = some path.after.head? := by
  induction path generalizing p turns with
  | nil => simp [Path.top,climb,Path.after]
  | cons f up hypothesis =>
    obtain ⟨turns,rfl⟩ : ∃ n, turns = n + 1 := ⟨turns - 1,by simp at enough; omega⟩
    obtain ⟨parent,_,_,_,_,rest⟩ := above
    obtain ⟨side,red,value,sibling⟩ := f
    rw [Path.top,climb]
    cases side with
    | left =>
      rw [if_pos (after value (mem_cons_self ..))]
      rfl
    | right =>
      have behind := before value (by simp [Path.before])
      rw [if_neg (Nat.not_lt_of_le behind),parent]
      refine hypothesis rest (fun a member => before a ?_) after (by simpa using enough)
      simp [Path.before,member]

theorem Inv.enumNext (inv : Inv s t) {front back : List α} (order : t.inorder = front ++ a :: back) :
    btreeEnumNext s a = some back.head? := by
  obtain ⟨path,red,left,right,rfl,depth⟩ := exists_plug (show a ∈ t.inorder by simp [order])
  have zip : Zip s.links path (.make .left red a left right) := by
    rw [← append_nil path,zip_plug]
    exact inv.zip
  have ordered := inv.ordered
  have nodup := inv.zip.nodup
  have height := inv.height_le
  rw [BinTree.height_make] at depth
  rw [Path.inorder_plug] at order ordered nodup
  have whole : path.before ++ (BinTree.make .left red a left right).inorder ++ path.after =
      (path.before ++ left.inorder) ++ a :: (right.inorder ++ path.after) := by
    simp [BinTree.make,BinTree.inorder]
  rw [whole] at order ordered nodup
  have absent := (nodup_middle.mp nodup).notMem
  rw [mem_append,not_or] at absent
  obtain ⟨_,_,rfl⟩ := (append_cons_inj_of_notMem absent.1 absent.2).mp order
  obtain ⟨_,_,before,after,here⟩ := ordered.split
  have ofRight : s.links.child .right a = right.top := zip.otherChild
  rw [btreeEnumNext,ofRight]
  cases first : right.top with
  | none =>
    cases BinTree.top_eq_none.mp first
    rw [zip.parent]
    refine climb_spec zip.above (fun c member => ?_) (fun c member => ?_) ?_
    · have := before c (mem_append_left _ member)
      have := inv.ordered.proper c (by simp [Path.inorder_plug,member])
      omega
    · exact after c (mem_append_right _ member)
    · exact (show path.length ≤ 256 by omega)
  | some next =>
    obtain ⟨inner,y,c,rest,found,rfl,front,_⟩ := leftmost_spec (below_make.mp zip.below).2.2.2.2.2
      first (show right.height ≤ maxTurns from (by omega : right.height ≤ 256))
    have smallest : (inner.plug (.make .left c y .nil rest)).inorder =
        y :: (rest.inorder ++ inner.after) := by
      rw [Path.inorder_plug,front]
      simp [BinTree.make,BinTree.inorder]
    simp [found,smallest]

theorem Inv.enumerate (inv : Inv s t) {front back : List α} (order : t.inorder = front ++ back)
    (enough : back.length ≤ turns) : Btree.enumerate s turns back.head? = some back := by
  induction back generalizing front turns with
  | nil => simp [Btree.enumerate]
  | cons a back hypothesis =>
    obtain ⟨turns,rfl⟩ : ∃ n, turns = n + 1 := ⟨turns - 1,by simp at enough; omega⟩
    have next := inv.enumNext order
    have rest := hypothesis (show t.inorder = (front ++ [a]) ++ back by simp [order])
      (by simpa using enough)
    simp [Btree.enumerate,next,rest]

/-! Sequences of calls. -/

/-- What a caller knows of a node in the tree. -/
structure Entry (α : Type) where
  node : α
  keyStart : Nat
  keyEnd : Nat
  deriving DecidableEq, Repr

inductive Call (α : Type) where
  | insert (node : α) (keyStart keyEnd : Nat)
  | unlink (node : α)
  deriving DecidableEq, Repr

variable [DecidableEq α]

def init : State α := ⟨⟨fun _ => none,fun _ _ => none,fun _ => false,none⟩,fun _ => 0,fun _ => 0⟩

section

variable (s : State α) (entries : List (Entry α))

/-- The caller fills in the keys of a node before it is inserted. -/
def setKeys (node : α) (keyStart keyEnd : Nat) : State α :=
  { s with
    keyStart := update s.keyStart node keyStart
    keyEnd := update s.keyEnd node keyEnd }

def step : Call α → Option (State α × Status)
  | .insert node keyStart keyEnd => btreeInsert (setKeys s node keyStart keyEnd) node
  | .unlink node => btreeUnlink s node

def execute : List (Call α) → State α → Option (State α × List Status)
  | [], s => some (s,[])
  | call :: calls, s => do
    let (s,status) ← step s call
    let (s,statuses) ← execute calls s
    some (s,status :: statuses)

/-- A sorted list of disjoint intervals. A caller inserts a node that is not in the list, with
64-bit keys, and unlinks one that is. -/
def specStep : Call α → Option (List (Entry α) × Status)
  | .insert node keyStart keyEnd =>
    if node ∈ entries.map Entry.node ∨ ¬ (keyStart < 2 ^ 64 ∧ keyEnd < 2 ^ 64) then none
    else if keyEnd < keyStart then some (entries,.invalidArgument)
    else if ∃ e ∈ entries, e.keyStart ≤ keyEnd ∧ keyStart ≤ e.keyEnd then
      some (entries,.insertDuplicateName)
    else some (entries.filter (·.keyEnd < keyStart) ++ ⟨node,keyStart,keyEnd⟩ ::
      entries.filter (keyEnd < ·.keyStart),.ok)
  | .unlink node =>
    if node ∈ entries.map Entry.node then some (entries.filter (·.node ≠ node),.ok) else none

def specExecute : List (Call α) → List (Entry α) → Option (List (Entry α) × List Status)
  | [], entries => some (entries,[])
  | call :: calls, entries => do
    let (entries,status) ← specStep entries call
    let (entries,statuses) ← specExecute calls entries
    some (entries,status :: statuses)

def entryOf (a : α) : Entry α := ⟨a,s.keyStart a,s.keyEnd a⟩

def Represents : Prop :=
  ∃ t, Inv s t ∧ entries = t.inorder.map (entryOf s)

end

variable {entries entries' : List (Entry α)} {status : Status} {node : α} {keyStart keyEnd : Nat}

omit [DecidableEq α] in
theorem map_node (s : State α) (xs : List α) : (xs.map (entryOf s)).map Entry.node = xs := by
  simp [entryOf,comp_def]

theorem Inv.setKeys (inv : Inv s t) (fresh : node ∉ t.inorder) (keyStart keyEnd : Nat) :
    Inv (Btree.setKeys s node keyStart keyEnd) t ∧
      t.inorder.map (entryOf (Btree.setKeys s node keyStart keyEnd)) = t.inorder.map (entryOf s) := by
  have starts : ∀ a ∈ t.inorder, (Btree.setKeys s node keyStart keyEnd).keyStart a = s.keyStart a :=
    fun a member => update_of_ne (ne_of_mem_of_not_mem member fresh) ..
  have ends : ∀ a ∈ t.inorder, (Btree.setKeys s node keyStart keyEnd).keyEnd a = s.keyEnd a :=
    fun a member => update_of_ne (ne_of_mem_of_not_mem member fresh) ..
  refine ⟨⟨inv.zip,inv.valid,⟨?_,?_⟩,?_⟩,?_⟩
  · refine List.Pairwise.imp_of_mem ?_ inv.ordered.increasing
    intro a b first second less
    rw [ends a first,starts b second]
    exact less
  · intro a member
    rw [starts a member,ends a member]
    exact inv.ordered.proper a member
  · intro a member
    rw [ends a member]
    exact inv.small a member
  · refine map_congr_left fun a member => ?_
    rw [entryOf,starts a member,ends a member]
    rfl

omit [DecidableEq α] in
/-- Where the new interval goes in the list. -/
theorem Ordered.filter_map {front back : List α} (ordered : Ordered s (front ++ x :: back)) :
    ((front ++ back).map (entryOf s)).filter (·.keyEnd < s.keyStart x) = front.map (entryOf s) ∧
      ((front ++ back).map (entryOf s)).filter (s.keyEnd x < ·.keyStart) =
        back.map (entryOf s) := by
  obtain ⟨_,_,before,after,here⟩ := ordered.split
  have proper := ordered.proper
  rw [map_append,filter_append,filter_append]
  constructor
  · rw [filter_eq_self.mpr,filter_eq_nil_iff.mpr,append_nil]
    · simp only [forall_mem_map]
      intro a member
      have behind := after a member
      have own := proper a (by simp [member])
      exact mt of_decide_eq_true (Nat.not_lt_of_le (here.trans (behind.le.trans own)))
    · simp only [forall_mem_map]
      exact fun a member => decide_eq_true (before a member)
  · rw [filter_eq_nil_iff.mpr,filter_eq_self.mpr,nil_append]
    · simp only [forall_mem_map]
      exact fun a member => decide_eq_true (after a member)
    · simp only [forall_mem_map]
      intro a member
      have earlier := before a member
      have own := proper a (by simp [member])
      exact mt of_decide_eq_true (Nat.not_lt_of_le (own.trans (earlier.le.trans here)))

section

variable (represents : Represents s entries)
include represents

theorem Represents.insert
    (allowed : specStep entries (.insert node keyStart keyEnd) = some (entries',status)) :
    ∃ s', btreeInsert (setKeys s node keyStart keyEnd) node = some (s',status) ∧
      Represents s' entries' ∧ (status ≠ .ok → s' = setKeys s node keyStart keyEnd) := by
  obtain ⟨t,inv,rfl⟩ := represents
  rw [specStep,map_node] at allowed
  split at allowed
  · cases allowed
  next permitted =>
    rw [not_or,not_not] at permitted
    obtain ⟨fresh,_,small⟩ := permitted
    obtain ⟨inv',same⟩ := inv.setKeys fresh keyStart keyEnd
    set s' := setKeys s node keyStart keyEnd with s'_eq
    have start : s'.keyStart node = keyStart := update_self ..
    have stop : s'.keyEnd node = keyEnd := update_self ..
    rw [← same] at allowed
    split at allowed
    next improper =>
      cases allowed
      exact ⟨s',Inv.insert_improper (by rwa [start,stop]),⟨t,inv',rfl⟩,fun _ => rfl⟩
    next proper =>
      have proper' : s'.keyStart node ≤ s'.keyEnd node := by
        rw [start,stop]
        exact Nat.le_of_not_lt proper
      split at allowed
      next overlapping =>
        cases allowed
        obtain ⟨e,member,before,after⟩ := overlapping
        obtain ⟨a,here,rfl⟩ := mem_map.mp member
        refine ⟨s',inv'.insert_overlapping proper' here ⟨?_,?_⟩,⟨t,inv',rfl⟩,fun _ => rfl⟩
        · rw [start]
          exact after
        · rw [stop]
          exact before
      next apart =>
        cases allowed
        obtain ⟨l,u,front,back,result,kept,before,after⟩ := inv'.insert fresh (by rwa [stop]) proper'
          fun a member meets => apart ⟨entryOf s' a,mem_map.mpr ⟨a,member,rfl⟩,stop ▸ meets.2,
            start ▸ meets.1⟩
        refine ⟨_,result,⟨u,kept,?_⟩,fun failed => (failed rfl).elim⟩
        have ordered : Ordered s' (front ++ node :: back) :=
          ⟨after ▸ kept.ordered.increasing,after ▸ kept.ordered.proper⟩
        have filters := ordered.filter_map
        rw [← before,start,stop] at filters
        rw [filters.1,filters.2,after,map_append]
        have entry : entryOf s' node = ⟨node,keyStart,keyEnd⟩ := by rw [entryOf,start,stop]
        rw [← entry]
        rfl

theorem Represents.unlink (allowed : specStep entries (.unlink node) = some (entries',status)) :
    ∃ s', btreeUnlink s node = some (s',status) ∧ Represents s' entries' := by
  obtain ⟨t,inv,rfl⟩ := represents
  rw [specStep,map_node] at allowed
  split at allowed
  next member =>
    cases allowed
    obtain ⟨l,u,front,back,result,kept,before,after⟩ := inv.unlink member
    refine ⟨_,result,u,kept,?_⟩
    have nodup := inv.zip.nodup
    rw [before] at nodup
    have absent := (nodup_middle.mp nodup).notMem
    rw [before,after,map_append,map_cons,filter_append,map_append,
      filter_cons_of_neg (by simp [entryOf]),filter_eq_self.mpr,filter_eq_self.mpr]
    · rfl
    · simp only [forall_mem_map]
      exact fun a here => decide_eq_true fun same => absent (by simp [← same,entryOf,here])
    · simp only [forall_mem_map]
      exact fun a here => decide_eq_true fun same => absent (by simp [← same,entryOf,here])
  · cases allowed

theorem Represents.step {call : Call α} (allowed : specStep entries call = some (entries',status)) :
    ∃ s', Btree.step s call = some (s',status) ∧ Represents s' entries' := by
  cases call with
  | insert node keyStart keyEnd =>
    obtain ⟨s',result,kept,_⟩ := represents.insert allowed
    exact ⟨s',result,kept⟩
  | unlink node => exact represents.unlink allowed

theorem Represents.execute {calls : List (Call α)} {statuses : List Status}
    (allowed : specExecute calls entries = some (entries',statuses)) :
    ∃ s', Btree.execute calls s = some (s',statuses) ∧ Represents s' entries' := by
  induction calls generalizing s entries statuses with
  | nil =>
    cases allowed
    exact ⟨s,rfl,represents⟩
  | cons call calls hypothesis =>
    obtain ⟨⟨middle,status⟩,first,rest⟩ := Option.bind_eq_some_iff.mp allowed
    obtain ⟨⟨last,later⟩,second,done⟩ := Option.bind_eq_some_iff.mp rest
    cases done
    obtain ⟨s₁,result,kept⟩ := represents.step first
    obtain ⟨s₂,result',kept'⟩ := hypothesis kept second
    refine ⟨s₂,?_,kept'⟩
    simp [Btree.execute,result,result']

end

/-- A tree in memory with everything a caller relies on. -/
structure Correct (s : State α) (entries : List (Entry α)) : Prop where
  /-- The links, parents included, are those of a red-black tree of low height that has the
  entries in order. -/
  linked : ∃ t, Zip s.links [] t ∧ Valid t ∧ entries = t.inorder.map (entryOf s) ∧
    t.height ≤ 2 * Nat.log 2 (entries.length + 1)
  disjoint : entries.Pairwise fun e e' => e.keyEnd < e'.keyStart
  proper : ∀ e ∈ entries, e.keyStart ≤ e.keyEnd
  rejected : ∀ node keyStart keyEnd entries' status,
    specStep entries (.insert node keyStart keyEnd) = some (entries',status) → status ≠ .ok →
      btreeInsert (setKeys s node keyStart keyEnd) node =
        some (setKeys s node keyStart keyEnd,status)
  search : ∀ key, ∃ found status, btreeSearch s key = some (found,status) ∧
    (status = .ok ↔ ∃ e ∈ entries, e.keyStart ≤ key ∧ key ≤ e.keyEnd) ∧
      ∀ e ∈ entries, found = some e.node ↔ e.keyStart ≤ key ∧ key ≤ e.keyEnd
  enumerate : ∀ key turns, entries.length ≤ turns →
    (btreeEnumStart s key).bind (Btree.enumerate s turns) =
      some ((entries.filter (key ≤ ·.keyEnd)).map Entry.node)

theorem Represents.correct (represents : Represents s entries) : Correct s entries := by
  obtain ⟨t,inv,rfl⟩ := represents
  have each : ∀ {P : Entry α → Prop}, (∀ e ∈ t.inorder.map (entryOf s), P e) ↔
      ∀ a ∈ t.inorder, P (entryOf s a) := forall_mem_map
  refine ⟨⟨t,inv.zip,inv.valid,rfl,?_⟩,?_,each.mpr inv.ordered.proper,?_,fun key => ?_,?_⟩
  · rw [length_map]
    exact inv.valid.height_le
  · exact pairwise_map.mpr inv.ordered.increasing
  · intro node keyStart keyEnd entries' status allowed failed
    obtain ⟨s',result,_,same⟩ := Represents.insert ⟨t,inv,rfl⟩ allowed
    rw [result,same failed]
  · refine ⟨_,_,inv.search key,?_,?_⟩
    · have decided : (t.inorder.find? (contains s key)).isSome = true ↔
          ∃ e ∈ t.inorder.map (entryOf s), e.keyStart ≤ key ∧ key ≤ e.keyEnd := by
        simp [contains_iff,entryOf]
      rw [← decided]
      cases (t.inorder.find? _).isSome <;> simp
    · rw [each]
      intro a member
      constructor
      · exact fun found => contains_iff.mp (find?_some found)
      · exact fun here => inv.ordered.find_eq member (contains_iff.mpr here)
  · intro key turns enough
    obtain ⟨front,whole⟩ := inv.ordered.suffix key
    have few : (t.inorder.filter (endsAfter s key)).length ≤ turns :=
      (length_filter_le _ _).trans (by rwa [length_map] at enough)
    rw [inv.enumStart key,Option.bind_some,inv.enumerate whole few]
    rw [filter_map,map_map]
    exact congrArg some (map_id _).symm

/-- Every sequence of calls, from an empty tree. -/
theorem btree_correct (calls : List (Call α)) (statuses : List Status)
    (allowed : specExecute calls [] = some (entries,statuses)) :
    ∃ s, execute calls init = some (s,statuses) ∧ Correct s entries := by
  have empty : Represents (init : State α) [] := by
    refine ⟨.nil,⟨⟨rfl,trivial,nodup_nil⟩,⟨rfl,0,.nil⟩,⟨.nil,?_⟩,?_⟩,rfl⟩
    · exact fun _ member => (not_mem_nil member).elim
    · exact fun _ member => (not_mem_nil member).elim
  obtain ⟨s,result,represents⟩ := empty.execute allowed
  exact ⟨s,result,represents.correct⟩

def sampleCalls : List (Call Nat) :=
  [.insert 0 10 19,.insert 1 20 29,.insert 2 30 39,.insert 3 25 31,.insert 4 0 9,.unlink 1,
    .insert 5 40 49,.unlink 0]

theorem btree_correct_sample : ∃ s, execute sampleCalls init =
    some (s,[.ok,.ok,.ok,.insertDuplicateName,.ok,.ok,.ok,.ok]) ∧
      Correct s [⟨4,0,9⟩,⟨2,30,39⟩,⟨5,40,49⟩] :=
  btree_correct sampleCalls _ (by decide +kernel)

end GpuExt.Btree

import Mathlib.Data.List.Basic

/-! Binary search trees addressed by their elements, without a balance condition.
A rebalancing primitive may return any tree with the same in-order contents, so
only the in-order list is ever compared. -/
namespace GpuExt

open List

inductive SearchTree (α : Type) where
  | nil
  | node (left : SearchTree α) (value : α) (right : SearchTree α)
  deriving DecidableEq, Repr

namespace SearchTree

variable {α : Type}

def inorder : SearchTree α → List α
  | nil => []
  | node left value right => left.inorder ++ value :: right.inorder

/-- Walk down from the root. `side` places the key relative to an element; the
second result is the last element passed before the walk stopped. -/
def descend (side : α → Ordering) : SearchTree α → Option α → Option α × Option α
  | nil, parent => (none, parent)
  | node left value right, parent =>
    match side value with
    | .lt => descend side left (some value)
    | .gt => descend side right (some value)
    | .eq => (some value, parent)

section Link
variable [DecidableEq α]

def linkLeft (parent child : α) : SearchTree α → SearchTree α
  | nil => nil
  | node left value right =>
    if value = parent then node (node nil child nil) value right
    else node (linkLeft parent child left) value (linkLeft parent child right)

def linkRight (parent child : α) : SearchTree α → SearchTree α
  | nil => nil
  | node left value right =>
    if value = parent then node left value (node nil child nil)
    else node (linkRight parent child left) value (linkRight parent child right)

variable {t : SearchTree α}

theorem linkLeft_absent (absent : parent ∉ t.inorder) : linkLeft parent child t = t := by
  induction t with
  | nil => rfl
  | node left value right ihl ihr =>
    simp only [inorder,mem_append,mem_cons,not_or] at absent
    simp [linkLeft,Ne.symm absent.2.1,ihl absent.1,ihr absent.2.2]

theorem linkRight_absent (absent : parent ∉ t.inorder) : linkRight parent child t = t := by
  induction t with
  | nil => rfl
  | node left value right ihl ihr =>
    simp only [inorder,mem_append,mem_cons,not_or] at absent
    simp [linkRight,Ne.symm absent.2.1,ihl absent.1,ihr absent.2.2]

def join : SearchTree α → SearchTree α → SearchTree α
  | nil, other => other
  | node left value right, other => node left value (join right other)

def erase (p : α) : SearchTree α → SearchTree α
  | nil => nil
  | node left value right =>
    if p ∈ left.inorder then node (erase p left) value right
    else if value = p then join left right
    else node left value (erase p right)

omit [DecidableEq α] in
theorem inorder_join (t other : SearchTree α) :
    (join t other).inorder = t.inorder ++ other.inorder := by
  induction t with
  | nil => rfl
  | node left value right _ ihr => simp [join,inorder,ihr]

theorem inorder_erase (p : α) (t : SearchTree α) : (erase p t).inorder = t.inorder.erase p := by
  induction t with
  | nil => rfl
  | node left value right ihl ihr =>
    simp only [erase,inorder]
    split
    next member =>
      rw [inorder,ihl,erase_append_left _ member]
    next absent =>
      rw [erase_append_right _ absent]
      split
      next same =>
        rw [inorder_join,same,erase_cons_head]
      next other =>
        rw [inorder,ihr,erase_cons_tail (by simpa using other)]

end Link

variable {side : α → Ordering} {t : SearchTree α}

theorem descend_found (found : descend side t parent = (some p, q)) :
    p ∈ t.inorder ∧ side p = .eq := by
  induction t generalizing parent with
  | nil => simp [descend] at found
  | node left value right ihl ihr =>
    simp only [descend] at found
    split at found
    · simp [inorder,ihl found]
    · simp [inorder,ihr found]
    next here =>
      obtain ⟨rfl,-⟩ : value = p ∧ parent = q := by simpa using found
      simp [inorder,here]

/-- Elements before the key, then at most one at the key, then those after it. -/
def Monotone (side : α → Ordering) (l : List α) : Prop :=
  l.Pairwise fun a b => side a ≠ .gt → side b = .lt

theorem Monotone.append {l r : List α} (ordered : Monotone side (l ++ v :: r)) :
    Monotone side l ∧ Monotone side r ∧ (∀ a ∈ l, side a ≠ .gt → side v = .lt) ∧
      ∀ b ∈ r, side v ≠ .gt → side b = .lt := by
  obtain ⟨hl,hr,cross⟩ := pairwise_append.mp ordered
  obtain ⟨hv,hr⟩ := pairwise_cons.mp hr
  exact ⟨hl,hr,fun a ha => cross a ha v (by simp),hv⟩

theorem descend_empty (missed : descend side t parent = (none, none)) :
    t = nil ∧ parent = none := by
  induction t generalizing parent with
  | nil => simpa [descend] using missed
  | node left value right ihl ihr =>
    simp only [descend] at missed
    split at missed
    · simpa using (ihl missed).2
    · simpa using (ihr missed).2
    · simp at missed

/-- Where a failed descent stopped: the in-order list splits at the key, and the
last element passed is the neighbour under which a new element hangs. -/
structure Gap [DecidableEq α] (side : α → Ordering) (t : SearchTree α) (q : α)
    (front back : List α) : Prop where
  contents : t.inorder = front ++ back
  before : ∀ a ∈ front, side a = .gt
  after : ∀ b ∈ back, side b = .lt
  neighbour : (side q = .lt ∧ back.head? = some q ∧
      ∀ child, (linkLeft q child t).inorder = front ++ child :: back) ∨
    (side q = .gt ∧ front.getLast? = some q ∧
      ∀ child, (linkRight q child t).inorder = front ++ child :: back)

variable [DecidableEq α]

theorem Gap.mem (gap : Gap side t q front back) : q ∈ t.inorder := by
  rw [gap.contents]
  rcases gap.neighbour with ⟨_,head,_⟩ | ⟨_,last,_⟩
  · exact mem_append_right _ (mem_of_mem_head? head)
  · exact mem_append_left _ (mem_of_mem_getLast? last)

/-- The neighbour occurs once, so linking below it leaves the other subtree alone. -/
theorem descend_gap (distinct : t.inorder.Nodup) (ordered : Monotone side t.inorder)
    (start : parent = none ∨ t ≠ nil) (missed : descend side t parent = (none, some q)) :
    ∃ front back, Gap side t q front back := by
  induction t generalizing parent with
  | nil =>
    rcases start with rfl | impossible
    · simp [descend] at missed
    · exact absurd rfl impossible
  | node left value right ihl ihr =>
    obtain ⟨hl,hr,cross,tail⟩ := ordered.append
    obtain ⟨dl,dr,apart⟩ := nodup_append.mp distinct
    obtain ⟨valueRight,dr⟩ := nodup_cons.mp dr
    simp only [descend] at missed
    split at missed
    next here =>
      have rightAfter : ∀ b ∈ right.inorder, side b = .lt := fun b hb => tail b hb (by simp [here])
      cases left with
      | nil =>
        obtain rfl : value = q := by simpa [descend] using missed
        refine ⟨[],value :: right.inorder,rfl,by simp,?_,Or.inl ⟨here,rfl,?_⟩⟩
        · simpa [here] using rightAfter
        · simp [linkLeft,inorder]
      | node _ _ _ =>
        obtain ⟨front,back,gap⟩ := ihl dl hl (Or.inr (by simp)) missed
        have member := gap.mem
        have other : value ≠ q := fun same => apart q member value (by simp) same.symm
        have absent : q ∉ right.inorder := fun inRight =>
          apart q member q (mem_cons_of_mem _ inRight) rfl
        refine ⟨front,back ++ value :: right.inorder,?_,gap.before,?_,?_⟩
        · rw [inorder,gap.contents,append_assoc]
        · intro b hb
          rcases mem_append.mp hb with hb | hb
          · exact gap.after b hb
          · rcases mem_cons.mp hb with rfl | hb
            · exact here
            · exact rightAfter b hb
        · rcases gap.neighbour with ⟨before,head,linked⟩ | ⟨after,last,linked⟩
          · refine Or.inl ⟨before,by simp [head],fun child => ?_⟩
            rw [linkLeft,if_neg other,linkLeft_absent absent,inorder,linked]
            simp
          · refine Or.inr ⟨after,last,fun child => ?_⟩
            rw [linkRight,if_neg other,linkRight_absent absent,inorder,linked]
            simp
    next here =>
      have leftBefore : ∀ a ∈ left.inorder, side a = .gt := by
        intro a ha
        by_contra other
        simp [cross a ha other] at here
      cases right with
      | nil =>
        obtain rfl : value = q := by simpa [descend] using missed
        refine ⟨left.inorder ++ [value],[],by simp [inorder],?_,by simp,
          Or.inr ⟨here,by simp,by simp [linkRight,inorder]⟩⟩
        intro a ha
        rcases mem_append.mp ha with ha | ha
        · exact leftBefore a ha
        · rw [mem_singleton.mp ha]; exact here
      | node _ _ _ =>
        obtain ⟨front,back,gap⟩ := ihr dr hr (Or.inr (by simp)) missed
        have member := gap.mem
        have other : value ≠ q := fun same => valueRight (same ▸ member)
        have absent : q ∉ left.inorder := fun inLeft =>
          apart q inLeft q (mem_cons_of_mem _ member) rfl
        refine ⟨left.inorder ++ value :: front,back,?_,?_,gap.after,?_⟩
        · rw [inorder,gap.contents]; simp
        · intro a ha
          rcases mem_append.mp ha with ha | ha
          · exact leftBefore a ha
          · rcases mem_cons.mp ha with rfl | ha
            · exact here
            · exact gap.before a ha
        · rcases gap.neighbour with ⟨before,head,linked⟩ | ⟨after,last,linked⟩
          · refine Or.inl ⟨before,head,fun child => ?_⟩
            rw [linkLeft,if_neg other,linkLeft_absent absent,inorder,linked]
            simp
          · refine Or.inr ⟨after,by simp [getLast?_cons,last],fun child => ?_⟩
            rw [linkRight,if_neg other,linkRight_absent absent,inorder,linked]
            simp
    · simp at missed

end SearchTree
end GpuExt

import GpuExt.LinkedTree
import Mathlib.Data.Nat.Log

/-! Red-black trees: no red node has a red child, and every way from a node down to a leaf has
the same number of black nodes. -/
namespace GpuExt.RedBlack

open LinkedTree

variable {α : Type} {t u near far : BinTree α} {side : Side} {red : Bool} {a : α} {b k : Nat}
  {path up : Path α} {f : Frame α}

/-- With `b` black nodes on every way down. -/
inductive Balanced : BinTree α → Nat → Prop where
  | nil : Balanced .nil 0
  | red {left right : BinTree α} {a : α} {b : Nat} (ofLeft : Balanced left b)
      (ofRight : Balanced right b) (blackLeft : left.isRed = false)
      (blackRight : right.isRed = false) : Balanced (.node true left a right) b
  | black {left right : BinTree α} {a : α} {b : Nat} (ofLeft : Balanced left b)
      (ofRight : Balanced right b) : Balanced (.node false left a right) (b + 1)

def weight (red : Bool) : Nat := if red then 0 else 1

/-- A red-black tree: its root is black. -/
def Valid (t : BinTree α) : Prop := t.isRed = false ∧ ∃ b, Balanced t b

theorem balanced_red : Balanced (.make side true a near far) b ↔
    Balanced near b ∧ Balanced far b ∧ near.isRed = false ∧ far.isRed = false := by
  constructor
  · intro balanced
    cases side with
    | left =>
      cases balanced with
      | red ofLeft ofRight blackLeft blackRight => exact ⟨ofLeft,ofRight,blackLeft,blackRight⟩
    | right =>
      cases balanced with
      | red ofLeft ofRight blackLeft blackRight => exact ⟨ofRight,ofLeft,blackRight,blackLeft⟩
  · rintro ⟨ofNear,ofFar,blackNear,blackFar⟩
    cases side with
    | left => exact .red ofNear ofFar blackNear blackFar
    | right => exact .red ofFar ofNear blackFar blackNear

theorem balanced_black : Balanced (.make side false a near far) b ↔
    ∃ k, b = k + 1 ∧ Balanced near k ∧ Balanced far k := by
  constructor
  · intro balanced
    cases side with
    | left =>
      cases balanced with
      | black ofLeft ofRight => exact ⟨_,rfl,ofLeft,ofRight⟩
    | right =>
      cases balanced with
      | black ofLeft ofRight => exact ⟨_,rfl,ofRight,ofLeft⟩
  · rintro ⟨k,rfl,ofNear,ofFar⟩
    cases side with
    | left => exact .black ofNear ofFar
    | right => exact .black ofFar ofNear

theorem balanced_black_succ : Balanced (.make side false a near far) (b + 1) ↔
    Balanced near b ∧ Balanced far b := by
  rw [balanced_black]
  constructor
  · rintro ⟨k,same,ofNear,ofFar⟩
    cases same
    exact ⟨ofNear,ofFar⟩
  · exact fun both => ⟨b,rfl,both⟩

theorem balanced_make : Balanced (.make side red a near far) (b + weight red) ↔
    Balanced near b ∧ Balanced far b ∧
      (red = true → near.isRed = false ∧ far.isRed = false) := by
  cases red with
  | false =>
    rw [weight,if_neg Bool.false_ne_true,balanced_black_succ]
    simp
  | true =>
    rw [weight,balanced_red]
    simp

theorem balanced_weight (balanced : Balanced (.make side red a near far) b) :
    ∃ k, b = k + weight red := by
  cases red with
  | false =>
    obtain ⟨k,same,_⟩ := balanced_black.mp balanced
    exact ⟨k,same⟩
  | true => exact ⟨b,rfl⟩

/-! Paths. -/

/-- The root pointer counts as a red parent: the root has to be black. -/
def topRed : Path α → Bool
  | [] => true
  | f :: _ => f.red

/-- The path is part of a balanced tree as soon as a subtree with `b` black nodes on every way
down is put at its end. -/
def Expects : Path α → Nat → Prop
  | [], _ => True
  | f :: up, b =>
    Balanced f.sibling b ∧ (f.red = true → f.sibling.isRed = false ∧ topRed up = false) ∧
      Expects up (b + weight f.red)

/-- The subtree fits. -/
structure Whole (path : Path α) (t : BinTree α) (b : Nat) : Prop where
  expects : Expects path b
  balanced : Balanced t b
  colour : topRed path = true → t.isRed = false

theorem whole_fill : Whole up (f.fill t) (b + weight f.red) ↔ Whole (f :: up) t b := by
  constructor
  · rintro ⟨expects,balanced,colour⟩
    obtain ⟨ofNear,ofFar,black⟩ := balanced_make.mp balanced
    rw [Frame.fill,BinTree.isRed_make] at colour
    refine ⟨⟨ofFar,fun isRed => ⟨(black isRed).2,?_⟩,expects⟩,ofNear,fun isRed => (black isRed).1⟩
    rw [Bool.eq_false_iff]
    intro topRed
    rw [colour topRed] at isRed
    cases isRed
  · rintro ⟨⟨sibling,black,expects⟩,balanced,colour⟩
    refine ⟨expects,balanced_make.mpr ⟨balanced,sibling,fun isRed => ?_⟩,fun top => ?_⟩
    · exact ⟨colour isRed,(black isRed).1⟩
    · rw [Frame.fill,BinTree.isRed_make,Bool.eq_false_iff]
      intro isRed
      rw [(black isRed).2] at top
      cases top

theorem Whole.valid (whole : Whole path t b) : Valid (path.plug t) := by
  induction path generalizing t b with
  | nil => exact ⟨whole.colour rfl,b,whole.balanced⟩
  | cons f up hypothesis => exact hypothesis (whole_fill.mpr whole)

theorem Valid.whole (valid : Valid (path.plug t)) : ∃ b, Whole path t b := by
  induction path generalizing t with
  | nil =>
    obtain ⟨black,b,balanced⟩ := valid
    exact ⟨b,trivial,balanced,fun _ => black⟩
  | cons f up hypothesis =>
    obtain ⟨b,whole⟩ := hypothesis valid
    obtain ⟨k,rfl⟩ := balanced_weight whole.balanced
    exact ⟨k,whole_fill.mp whole⟩

/-! Heights. -/

theorem Balanced.height_le (balanced : Balanced t b) :
    t.height ≤ 2 * b + if t.isRed then 1 else 0 := by
  induction balanced with
  | nil => exact Nat.zero_le _
  | red _ _ blackLeft blackRight leftward rightward =>
    rw [blackLeft,if_neg Bool.false_ne_true] at leftward
    rw [blackRight,if_neg Bool.false_ne_true] at rightward
    simp only [BinTree.height,BinTree.isRed,if_true]
    omega
  | black _ _ leftward rightward =>
    have atMost : ∀ c : Bool, (if c then 1 else 0) ≤ 1 := by decide
    have := leftward.trans (Nat.add_le_add_left (atMost _) _)
    have := rightward.trans (Nat.add_le_add_left (atMost _) _)
    simp only [BinTree.height]
    omega

theorem Balanced.size_ge (balanced : Balanced t b) : 2 ^ b ≤ t.inorder.length + 1 := by
  induction balanced with
  | nil => exact Nat.le_refl 1
  | red _ _ _ _ leftward _ =>
    simp only [BinTree.inorder,List.length_append]
    omega
  | black _ _ leftward rightward =>
    simp only [BinTree.inorder,List.length_append,List.length_cons]
    omega

theorem Valid.height_le (valid : Valid t) : t.height ≤ 2 * Nat.log 2 (t.inorder.length + 1) := by
  obtain ⟨black,b,balanced⟩ := valid
  have high := balanced.height_le
  rw [black] at high
  exact high.trans (Nat.mul_le_mul_left 2 (Nat.le_log_of_pow_le Nat.one_lt_two balanced.size_ge))

end GpuExt.RedBlack

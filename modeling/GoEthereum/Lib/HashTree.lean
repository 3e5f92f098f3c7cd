/-
  Trees whose nodes name their parents by keys, as the blocks of a chain do by hashes.

  The ancestors of a node are a line: there is one for every height up to its own.  A branch
  is a list of nodes from a node down to one of its ancestors (`Path`).  An index that names
  the ancestors of a node follows another one when its branch is written over it
  (`Follows.switch`).
-/
import Mathlib.Logic.Relation
import Mathlib.Data.Nat.Basic
import Mathlib.Tactic.Common

/-- A tree of nodes with keys; the key of a node determines it. -/
structure HashTree (α κ : Type*) where
  key : α → κ
  parentKey : α → κ
  height : α → ℕ
  mem : α → Prop
  root : α
  root_mem : mem root
  root_height : height root = 0
  key_inj : ∀ {a b}, mem a → mem b → key a = key b → a = b
  linked : ∀ {a}, mem a → a ≠ root → ∃ p, mem p ∧ key p = parentKey a ∧ height a = height p + 1

namespace HashTree

variable {α κ : Type*} {T : HashTree α κ} {a b c p q : α} {l l' : List α}

/-- The node `p` is the parent of `a`. -/
structure Parent (T : HashTree α κ) (a p : α) : Prop where
  child_mem : T.mem a
  ne_root : a ≠ T.root
  mem : T.mem p
  key_eq : T.key p = T.parentKey a

/-- The node `a` is `b` or an ancestor of `b`. -/
def Anc (T : HashTree α κ) (b a : α) : Prop := Relation.ReflTransGen T.Parent b a

theorem exists_parent (ha : T.mem a) (hne : a ≠ T.root) : ∃ p, T.Parent a p := by
  obtain ⟨p, hp, hkey, -⟩ := T.linked ha hne
  exact ⟨p, ha, hne, hp, hkey⟩

namespace Parent

theorem unique (h : T.Parent a p) (h' : T.Parent a q) : p = q :=
  T.key_inj h.mem h'.mem (h.key_eq.trans h'.key_eq.symm)

theorem height_eq (h : T.Parent a p) : T.height a = T.height p + 1 := by
  obtain ⟨q, hq, hkey, hheight⟩ := T.linked h.child_mem h.ne_root
  rw [T.key_inj h.mem hq (h.key_eq.trans hkey.symm)]
  exact hheight

end Parent

/-! ## Ancestors -/

namespace Anc

theorem refl (a : α) : T.Anc a a := Relation.ReflTransGen.refl

theorem trans (h : T.Anc a b) (h' : T.Anc b c) : T.Anc a c := Relation.ReflTransGen.trans h h'

theorem of_parent (h : T.Parent a p) : T.Anc a p := .single h

theorem mem (h : T.Anc b a) (hb : T.mem b) : T.mem a := by
  induction h with
  | refl => exact hb
  | tail _ hp _ => exact hp.mem

theorem height_le (h : T.Anc b a) : T.height a ≤ T.height b := by
  induction h with
  | refl => exact le_rfl
  | tail _ hp ih =>
    have := hp.height_eq
    omega

/-- An ancestor is the node itself or an ancestor of its parent. -/
theorem cases_parent (h : T.Anc b a) (hp : T.Parent b p) : a = b ∨ T.Anc p a := by
  rcases Relation.ReflTransGen.cases_head h with rfl | ⟨q, hq, hqa⟩
  · exact .inl rfl
  · rw [hp.unique hq]
    exact .inr hqa

/-- The ancestors are a line. -/
theorem total (h : T.Anc b a) (h' : T.Anc b c) : T.Anc a c ∨ T.Anc c a := by
  induction h with
  | refl => exact .inl h'
  | tail _ hp ih =>
    rcases ih with ih | ih
    · rcases ih.cases_parent hp with rfl | ih
      · exact .inr (of_parent hp)
      · exact .inl ih
    · exact .inr (ih.trans (of_parent hp))

theorem eq_of_height_le (h : T.Anc b a) (hle : T.height b ≤ T.height a) : a = b := by
  rcases Relation.ReflTransGen.cases_head h with rfl | ⟨q, hq, hqa⟩
  · rfl
  · have := hq.height_eq
    have := height_le hqa
    omega

/-- There is at most one ancestor for each height. -/
theorem eq_of_height_eq (h : T.Anc b a) (h' : T.Anc b c) (heq : T.height a = T.height c) :
    a = c := by
  rcases h.total h' with hac | hca
  · exact (hac.eq_of_height_le (Nat.le_of_eq heq)).symm
  · exact hca.eq_of_height_le (Nat.le_of_eq heq.symm)

/-- There is an ancestor for each height up to that of the node. -/
theorem exists_height (hb : T.mem b) {n : ℕ} (hn : n ≤ T.height b) :
    ∃ a, T.Anc b a ∧ T.height a = n := by
  induction hk : T.height b - n generalizing b with
  | zero => exact ⟨b, refl b, by omega⟩
  | succ k ih =>
    have hne : b ≠ T.root := by
      rintro rfl
      rw [T.root_height] at hk
      omega
    obtain ⟨p, hp⟩ := exists_parent hb hne
    have hheight := hp.height_eq
    obtain ⟨a, ha, hn⟩ := ih hp.mem (by omega) (by omega)
    exact ⟨a, (of_parent hp).trans ha, hn⟩

end Anc

/-! ## Branches -/

/-- The list goes from `b` down to its ancestor `c`, which is not in it. -/
inductive Path (T : HashTree α κ) : α → List α → α → Prop
  | nil {c : α} : Path T c [] c
  | cons {b p c : α} {l : List α} : T.Parent b p → Path T p l c → Path T b (b :: l) c

namespace Path

theorem append (h : T.Path b l c) (hp : T.Parent c p) : T.Path b (l ++ [c]) p := by
  induction h with
  | nil => exact .cons hp .nil
  | cons hb _ ih => exact .cons hb (ih hp)

theorem anc (h : T.Path b l c) : T.Anc b c := by
  induction h with
  | nil => exact .refl _
  | cons hb _ ih => exact (Anc.of_parent hb).trans ih

/-- The ancestors of a node are its branch and the ancestors of the end of the branch. -/
theorem anc_iff (h : T.Path b l c) : T.Anc b a ↔ a ∈ l ∨ T.Anc c a := by
  constructor
  · intro ha
    induction h with
    | nil => exact .inr ha
    | cons hb _ ih =>
      rcases ha.cases_parent hb with rfl | ha
      · exact .inl (.head _)
      · exact (ih ha).imp (.tail _) id
  · rintro (ha | ha)
    · induction h with
      | nil => cases ha
      | cons hb hpath ih =>
        rcases List.mem_cons.1 ha with rfl | ha
        · exact .refl _
        · exact (Anc.of_parent hb).trans (ih ha)
    · exact h.anc.trans ha

theorem mem_of_mem (h : T.Path b l c) (ha : a ∈ l) : T.mem a := by
  induction h with
  | nil => cases ha
  | cons hb _ ih =>
    rcases List.mem_cons.1 ha with rfl | ha
    · exact hb.child_mem
    · exact ih ha

theorem height_lt (h : T.Path b l c) (ha : a ∈ l) : T.height c < T.height a := by
  induction h with
  | nil => cases ha
  | cons hb hpath ih =>
    rcases List.mem_cons.1 ha with rfl | ha
    · have := hb.height_eq
      have := hpath.anc.height_le
      omega
    · exact ih ha

theorem height_le (h : T.Path b l c) (ha : a ∈ l) : T.height a ≤ T.height b :=
  (h.anc_iff.2 (.inl ha)).height_le

end Path

/-! ## Indices -/

/-- The index names the ancestors of `b`; `look a` is what it has at the height of `a`. -/
def Follows (T : HashTree α κ) (look : α → Option κ) (b : α) : Prop :=
  ∀ a, T.Anc b a → look a = some (T.key a)

/-- The branch of another node is written over the index. -/
theorem Follows.switch {look look' : α → Option κ} (h : T.Follows look b) (hbc : T.Anc b c)
    (hpath : T.Path q l c) (hin : ∀ a ∈ l, look' a = some (T.key a))
    (hout : ∀ a, T.Anc c a → look' a = look a) : T.Follows look' q := by
  intro a ha
  rcases hpath.anc_iff.1 ha with ha | ha
  · exact hin a ha
  · rw [hout a ha]
    exact h a (hbc.trans ha)

end HashTree

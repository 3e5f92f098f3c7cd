/-
  States with a log of what undoes their changes.

  A log lists entries, the last one first.  Undoing a change may lead to a state that is
  only related to the old one: `R x y` says that `y` will do for `x`, and undoing entries
  keeps this (`Mono`).  A state extends another one if its log has more entries and
  undoing them leads back (`Extends`).  Extensions compose, and cutting the log of an
  extension back to any length not below the start leaves an extension (`Extends.cut`).
-/
import Mathlib.Tactic

namespace UndoLog

variable {σ ε : Type*} (undo : ε → σ → Option σ) (R : σ → σ → Prop)

/-- Undoing entries, the first one first. -/
def undoAll : List ε → σ → Option σ
  | [], s => some s
  | e :: es, s => (undo e s).bind (undoAll es)

/-- Entries are undone in related states. -/
def Mono : Prop := ∀ e s s' t, R s t → undo e s = some s' → ∃ t', undo e t = some t' ∧ R s' t'

/-- The second state with its log is reached from the first by changes that can be undone. -/
def Extends (x y : σ × List ε) : Prop :=
  ∃ es s, y.2 = es ++ x.2 ∧ undoAll undo es y.1 = some s ∧ R x.1 s

variable {undo R}

theorem undoAll_append (es es' : List ε) (s : σ) :
    undoAll undo (es ++ es') s = (undoAll undo es s).bind (undoAll undo es') := by
  induction es generalizing s with
  | nil => rfl
  | cons e es ih =>
    rw [List.cons_append, undoAll, undoAll, Option.bind_assoc]
    congr 1
    funext s
    exact ih s

theorem Mono.undoAll (hR : Mono undo R) {es : List ε} {s s' t : σ} (hst : R s t)
    (h : undoAll undo es s = some s') : ∃ t', undoAll undo es t = some t' ∧ R s' t' := by
  induction es generalizing s t with
  | nil =>
    cases h
    exact ⟨t, rfl, hst⟩
  | cons e es ih =>
    obtain ⟨s₁, h₁, h₂⟩ := Option.bind_eq_some_iff.1 h
    obtain ⟨t₁, ht₁, hst₁⟩ := hR e s s₁ t hst h₁
    obtain ⟨t', ht', hst'⟩ := ih hst₁ h₂
    exact ⟨t', by rw [UndoLog.undoAll, ht₁]; exact ht', hst'⟩

theorem Extends.refl [Std.Refl R] (x : σ × List ε) : Extends undo R x x :=
  ⟨[], x.1, rfl, rfl, Std.Refl.refl x.1⟩

/-- A state that has changed, with the entry that undoes the change. -/
theorem Extends.single {s s' t : σ} {l : List ε} {e : ε} (h : undo e s' = some t) (ht : R s t) :
    Extends undo R (s, l) (s', e :: l) := by
  refine ⟨[e], t, rfl, ?_, ht⟩
  rw [undoAll, h]
  rfl

theorem Extends.trans [IsTrans σ R] (hR : Mono undo R) {x y z : σ × List ε}
    (h : Extends undo R x y) (h' : Extends undo R y z) : Extends undo R x z := by
  obtain ⟨es, s, hl, hu, hs⟩ := h
  obtain ⟨es', t, hl', hu', ht⟩ := h'
  obtain ⟨t', hundo, ht'⟩ := hR.undoAll ht hu
  refine ⟨es' ++ es, t', by rw [hl', hl, List.append_assoc], ?_, IsTrans.trans _ _ _ hs ht'⟩
  rw [undoAll_append, hu']
  exact hundo

theorem Extends.length_le {x y : σ × List ε} (h : Extends undo R x y) :
    x.2.length ≤ y.2.length := by
  obtain ⟨es, s, hl, -⟩ := h
  rw [hl, List.length_append]
  omega

/-- The log of an extension is cut back to a length not below the start. -/
theorem Extends.cut {x y : σ × List ε} (h : Extends undo R x y) {n : ℕ} (hn : x.2.length ≤ n) :
    ∃ s, undoAll undo (y.2.take (y.2.length - n)) y.1 = some s ∧
      Extends undo R x (s, y.2.drop (y.2.length - n)) := by
  obtain ⟨es, t, hl, hu, ht⟩ := h
  have hlen : y.2.length = es.length + x.2.length := by rw [hl, List.length_append]
  have hk : y.2.length - n ≤ es.length := by omega
  rw [← List.take_append_drop (y.2.length - n) es, undoAll_append] at hu
  obtain ⟨s, hs, hrest⟩ := Option.bind_eq_some_iff.1 hu
  refine ⟨s, ?_, es.drop (y.2.length - n), t, ?_, hrest, ht⟩
  · rw [hl, List.take_append_of_le_length (hl ▸ hk), ← hl]
    exact hs
  · change y.2.drop _ = _
    rw [hl, List.drop_append_of_le_length (hl ▸ hk), ← hl]

/-- Cutting the log back to the start leads to a state that will do for the start. -/
theorem Extends.restore {x y : σ × List ε} (h : Extends undo R x y) :
    ∃ s, undoAll undo (y.2.take (y.2.length - x.2.length)) y.1 = some s ∧ R x.1 s := by
  obtain ⟨es, s, hl, hu, hs⟩ := h
  have hk : y.2.length - x.2.length = es.length := by rw [hl, List.length_append]; omega
  rw [hk, hl, List.take_left]
  exact ⟨s, hu, hs⟩

end UndoLog

/-
  Finite maps whose values all have one type.

  A map is an association list without repeated keys; `get` finds the value of a
  key, `set` and `erase` change one key.
-/
import Mathlib.Data.List.AList
import Mathlib.Tactic

/-- A finite map from `α` to `β`. -/
def AssocMap (α β : Type*) := AList fun _ : α => β

namespace AssocMap

variable {α β γ : Type*}

/-- The empty map. -/
def empty : AssocMap α β := (∅ : AList _)

/-- The keys. -/
def keys (m : AssocMap α β) : List α := AList.keys m

/-- The number of keys. -/
def size (m : AssocMap α β) : ℕ := m.entries.length

section
variable [DecidableEq α]

/-- The value of a key. -/
def get (m : AssocMap α β) (a : α) : Option β := AList.lookup a m

/-- There is a value for the key. -/
def has (m : AssocMap α β) (a : α) : Bool := (m.get a).isSome

/-- The map with a new value for a key. -/
def set (m : AssocMap α β) (a : α) (b : β) : AssocMap α β := AList.insert a b m

/-- The map without a key. -/
def erase (m : AssocMap α β) (a : α) : AssocMap α β := AList.erase a m

variable (m : AssocMap α β) (a x : α) (b : β)

@[simp]
theorem get_empty : (empty : AssocMap α β).get a = none := AList.lookup_empty a

theorem get_set : (m.set a b).get x = if x = a then some b else m.get x := by
  split_ifs with h
  · subst h; exact AList.lookup_insert m
  · exact AList.lookup_insert_ne h

@[simp]
theorem get_set_self : (m.set a b).get a = some b := by rw [get_set, if_pos rfl]

@[simp]
theorem set_set (c : β) : (m.set a b).set a c = m.set a c := AList.insert_insert m

theorem get_erase : (m.erase a).get x = if x = a then none else m.get x := by
  split_ifs with h
  · subst h; exact AList.lookup_erase x m
  · exact AList.lookup_erase_ne h

theorem mem_keys : x ∈ m.keys ↔ ∃ b, m.get x = some b := by
  rw [← Option.isSome_iff_exists]
  exact AList.lookup_isSome.symm

theorem keys_set_of_get_none (h : m.get a = none) : (m.set a b).keys = a :: m.keys := by
  have hk : a ∉ m.keys := fun hk => by
    obtain ⟨b, hb⟩ := (mem_keys m a).1 hk
    rw [h] at hb
    cases hb
  have h₁ : (m.set a b).keys = a :: m.keys.erase a := AList.keys_insert m
  rw [h₁, List.erase_of_not_mem hk]

theorem has_eq_true : m.has x = true ↔ ∃ b, m.get x = some b := Option.isSome_iff_exists

theorem has_eq_false : m.has x = false ↔ m.get x = none :=
  Option.isSome_eq_false_iff.trans Option.isNone_iff_eq_none

end

theorem nodup_keys (m : AssocMap α β) : m.keys.Nodup := AList.keys_nodup m

theorem length_keys (m : AssocMap α β) : m.keys.length = m.size := List.length_map ..

/-- What is read of an entry does not change when the entry changes elsewhere. -/
theorem elim_of_map {δ : Type*} {o o' : Option α} {g : α → δ} (h : o.map g = o'.map g)
    (f : δ → γ) (z : γ) : (o.elim z fun a => f (g a)) = o'.elim z fun a => f (g a) := by
  have hg : ∀ o : Option α, (o.elim z fun a => f (g a)) = (o.map g).elim z f := by
    rintro (_ | a) <;> rfl
  rw [hg, h, hg]

section
variable [DecidableEq α] {m m' : AssocMap α β} {a x : α} {b b' : β} {g : β → γ}

theorem get_set_some (h : (m.set a b').get x = some b) : x = a ∧ b = b' ∨ x ≠ a ∧ m.get x = some b := by
  rw [get_set] at h
  split_ifs at h with hx
  · exact .inl ⟨hx, (Option.some.inj h).symm⟩
  · exact .inr ⟨hx, h⟩

theorem get_erase_some (h : (m.erase a).get x = some b) : x ≠ a ∧ m.get x = some b := by
  rw [get_erase] at h
  split_ifs at h with hx
  exact ⟨hx, h⟩

theorem map_get_set (b' : β) (h : m.get a = some b) (hg : x = a → g b' = g b) :
    ((m.set a b').get x).map g = (m.get x).map g := by
  rw [get_set]
  split_ifs with hx
  · rw [hx, h, Option.map_some, Option.map_some, hg hx]
  · rfl

theorem has_of_map (h : (m'.get x).map g = (m.get x).map g) : m'.has x = m.has x := by
  have := congrArg Option.isSome h
  rwa [Option.isSome_map, Option.isSome_map] at this

theorem has_set (h : m.get a = some b) (x : α) : (m.set a b').has x = m.has x :=
  has_of_map (map_get_set (g := fun _ => ()) b' h fun _ => rfl)

end

/-! ## Values -/

/-- The values. -/
def values (m : AssocMap α β) : List β := m.entries.map fun e => e.2

theorem length_values (m : AssocMap α β) : m.values.length = m.size := List.length_map ..

section
variable [DecidableEq α] {m : AssocMap α β} {a : α} {b : β}

theorem keys_erase (m : AssocMap α β) (a : α) : (m.erase a).keys = m.keys.erase a :=
  AList.keys_erase a m

theorem mem_values : b ∈ m.values ↔ ∃ a, m.get a = some b := by
  constructor
  · intro h
    obtain ⟨⟨a, b⟩, he, rfl⟩ := List.mem_map.1 h
    exact ⟨a, AList.mem_lookup_iff.2 he⟩
  · rintro ⟨a, h⟩
    exact List.mem_map.2 ⟨⟨a, b⟩, AList.mem_lookup_iff.1 h, rfl⟩

/-- The map in any order of its keys. -/
theorem filterMap_get {l : List α} (h : l.Perm m.keys) : (l.filterMap m.get).Perm m.values := by
  have hkeys : m.keys.filterMap m.get = m.values := by
    change (m.entries.map Sigma.fst).filterMap m.get = m.entries.map fun e => e.2
    rw [List.filterMap_map, ← List.filterMap_eq_map]
    exact List.filterMap_congr fun e he => AList.mem_lookup_iff.2 he
  rw [← hkeys]
  exact h.filterMap _

theorem values_erase (h : m.get a = some b) : m.values.Perm (b :: (m.erase a).values) := by
  have hkeys : (a :: (m.erase a).keys).Perm m.keys := by
    rw [keys_erase]
    exact (List.perm_cons_erase ((mem_keys m a).2 ⟨b, h⟩)).symm
  have hrest : (m.erase a).keys.filterMap m.get = (m.erase a).keys.filterMap (m.erase a).get := by
    refine List.filterMap_congr fun x hx => ?_
    rw [get_erase, if_neg]
    rintro rfl
    rw [keys_erase] at hx
    exact (m.nodup_keys.not_mem_erase) hx
  have := filterMap_get hkeys
  rw [List.filterMap_cons_some h, hrest] at this
  exact this.symm.trans ((filterMap_get (.refl _)).cons b)

end

/-! ## Lists of entries -/

/-- The entries. -/
def toList (m : AssocMap α β) : List (α × β) := m.entries.map fun e => (e.1, e.2)

/-- The map with these entries. -/
def ofList [DecidableEq α] (l : List (α × β)) : AssocMap α β :=
  l.foldr (fun e m => m.set e.1 e.2) .empty

theorem ofList_toList [DecidableEq α] (m : AssocMap α β) : ofList m.toList = m := by
  obtain ⟨entries, hnodup⟩ := m
  induction entries with
  | nil => rfl
  | cons e entries ih =>
    obtain ⟨hmem, hrest⟩ := List.nodupKeys_cons.1 hnodup
    refine AList.ext ?_
    change List.kinsert e.1 e.2 (ofList (toList ⟨entries, hrest⟩)).entries = _
    rw [ih hrest, List.kinsert_def, List.kerase_of_notMem_keys hmem]

/-! ## Sums -/

/-- The sum of `f` over the values. -/
def total (m : AssocMap α β) (f : β → ℕ) : ℕ := (m.entries.map fun e => f e.2).sum

theorem size_eq_total (m : AssocMap α β) : m.size = m.total fun _ => 1 := by
  simp [size, total]

section
variable [DecidableEq α] {m : AssocMap α β} {a : α} {b : β} (f : β → ℕ)

theorem total_set (m : AssocMap α β) (a : α) (b : β) :
    (m.set a b).total f = f b + (m.erase a).total f := rfl

theorem total_erase (h : m.get a = some b) : m.total f = f b + (m.erase a).total f := by
  have hmem : a ∈ m.entries.keys := (mem_keys m a).2 ⟨b, h⟩
  obtain ⟨b', l₁, l₂, hl₁, hm, hk⟩ := List.exists_of_kerase hmem
  have hb : m.entries.dlookup a = some b := h
  rw [hm, List.dlookup_append, List.dlookup_eq_none.2 hl₁, Option.none_or, List.dlookup_cons_eq] at hb
  cases hb
  have he : (m.erase a).entries = l₁ ++ l₂ := hk
  simp only [total, hm, he, List.map_append, List.map_cons, List.sum_append, List.sum_cons]
  omega

theorem total_erase_of_none (h : m.get a = none) : (m.erase a).total f = m.total f := by
  have hmem : a ∉ m.entries.keys := fun hk => by
    obtain ⟨b, hb⟩ := (mem_keys m a).1 hk
    rw [h] at hb
    cases hb
  have he : (m.erase a).entries = m.entries := List.kerase_of_notMem_keys hmem
  rw [total, he, total]

/-- The sum as the part of one key and the rest. -/
theorem total_eq_add_erase (m : AssocMap α β) (a : α) :
    m.total f = (m.get a).elim 0 f + (m.erase a).total f := by
  cases h : m.get a with
  | none => rw [total_erase_of_none f h, Option.elim_none, Nat.zero_add]
  | some b => exact total_erase f h

theorem le_total (h : m.get a = some b) : f b ≤ m.total f := by
  rw [total_erase f h]
  exact Nat.le_add_right ..

theorem total_eq_zero (h : ∀ a b, m.get a = some b → f b = 0) : m.total f = 0 := by
  refine List.sum_eq_zero fun n hn => ?_
  obtain ⟨⟨a, b⟩, he, rfl⟩ := List.mem_map.1 hn
  exact h a b (AList.mem_lookup_iff.2 he)

end

end AssocMap

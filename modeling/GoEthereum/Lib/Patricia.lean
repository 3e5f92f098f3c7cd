/-
  Patricia trees over an alphabet with a terminator.

  The keys are strings over `α` that end with the letter `term` and contain it
  nowhere else, so no key is a proper prefix of another (`Term`).  A tree is
  empty, a value, a path `short k t` or a branch `full cs`.  `Canon` is the
  normal form: a path ends in a value or in a branch, and a branch has at least
  two children.

  * `insert` and `delete` keep the normal form and do to `lookup` what they
    should (`lookup_insert`, `lookup_delete`);
  * a tree in normal form is determined by what it maps (`Canon.unique`).
-/
import Mathlib.Data.FinEnum
import Mathlib.Data.List.Basic
import Mathlib.Tactic

namespace Patricia

/-- A tree with letters in `α` and values in `V`. -/
inductive Tree (α V : Type*) where
  | nil
  | value (v : V)
  | short (k : List α) (t : Tree α V)
  | full (cs : α → Tree α V)

variable {α V : Type*}

/-! ## Keys -/

/-- A key: the terminator stands at the end and only there. -/
def Term (term : α) (key : List α) : Prop := ∃ xs, key = xs ++ [term] ∧ term ∉ xs

section
variable {term a : α} {k key key' : List α}

theorem Term.ne_nil (h : Term term key) : key ≠ [] := by
  obtain ⟨xs, rfl, -⟩ := h; simp

theorem Term.mem (h : Term term key) : term ∈ key := by
  obtain ⟨xs, rfl, -⟩ := h; simp

/-- The rest of a key after letters that are not the terminator. -/
theorem term_append (hk : term ∉ k) : Term term (k ++ key) ↔ Term term key := by
  constructor
  · rintro ⟨xs, heq, hxs⟩
    induction k generalizing xs with
    | nil => exact ⟨xs, heq, hxs⟩
    | cons b k ih =>
      cases xs with
      | nil => simp only [List.cons_append, List.nil_append, List.cons.injEq] at heq; simp_all
      | cons x xs =>
        simp only [List.cons_append, List.cons.injEq] at heq
        exact ih (fun h => hk (by simp [h])) xs heq.2 fun h => hxs (by simp [h])
  · rintro ⟨xs, rfl, hxs⟩
    exact ⟨k ++ xs, by simp, by simp [hk, hxs]⟩

theorem term_cons (ha : a ≠ term) : Term term (a :: key) ↔ Term term key :=
  term_append (k := [a]) (by simpa using ha.symm)

theorem term_cons_self : Term term (term :: key) ↔ key = [] := by
  constructor
  · rintro ⟨xs, heq, hxs⟩
    cases xs with
    | nil => simpa using heq
    | cons x xs =>
      simp only [List.cons_append, List.cons.injEq] at heq
      exact absurd (by simp [heq.1]) hxs
  · rintro rfl; exact ⟨[], rfl, by simp⟩

/-- No key is a proper prefix of another one. -/
theorem Term.eq_of_append (h : Term term key) (h' : Term term (key ++ key')) : key' = [] := by
  obtain ⟨xs, rfl, hxs⟩ := h
  rw [List.append_assoc, term_append hxs] at h'
  exact term_cons_self.1 h'

/-- The letters in front of a letter of a key are not the terminator. -/
theorem Term.notMem_of_append (h : Term term (k ++ a :: key)) : term ∉ k := by
  obtain ⟨xs, heq, hxs⟩ := h
  intro hmem
  have hk : k <+: xs := by
    have h₁ : k <+: xs ++ [term] := ⟨a :: key, heq⟩
    rcases List.prefix_concat_iff.1 (by simpa using h₁) with h₂ | h₂
    · exfalso
      have := congrArg List.length heq
      rw [h₂] at this
      simp at this
    · exact h₂
  exact hxs (hk.subset hmem)

end

namespace Tree

variable {term a : α} {k key : List α} {t : Tree α V} {cs : α → Tree α V}

/-- The empty tree. -/
def isNil : Tree α V → Bool
  | .nil => true
  | _ => false

theorem isNil_iff : t.isNil = true ↔ t = .nil := by cases t <;> simp [isNil]

theorem isNil_eq_false : t.isNil = false ↔ t ≠ .nil := by cases t <;> simp [isNil]

/-- The path `k` to `t`, nothing if it is empty. -/
def path : List α → Tree α V → Tree α V
  | [], t => t
  | a :: k, t => .short (a :: k) t

/-- A path in front of a tree; two paths in a row become one. -/
def join (k : List α) : Tree α V → Tree α V
  | .short k' t => .short (k ++ k') t
  | t => .short k t

/-- The letters with a child. -/
def letters [FinEnum α] (cs : α → Tree α V) : List α :=
  (FinEnum.toList α).filter fun a => !(cs a).isNil

theorem mem_letters [FinEnum α] : a ∈ letters cs ↔ cs a ≠ .nil := by
  simp only [letters, List.mem_filter, FinEnum.mem_toList, true_and, Bool.not_eq_true', ne_eq]
  rw [← isNil_iff, Bool.not_eq_true]

theorem nodup_letters [FinEnum α] (cs : α → Tree α V) : (letters cs).Nodup :=
  FinEnum.nodup_toList.filter _

/-- The normal form. -/
inductive Canon (term : α) : Tree α V → Prop
  | leaf {k : List α} {v : V} : Term term k → Canon term (.short k (.value v))
  | ext {k : List α} {cs : α → Tree α V} : k ≠ [] → term ∉ k → Canon term (.full cs) →
      Canon term (.short k (.full cs))
  | full {cs : α → Tree α V} : (∀ a, a ≠ term → cs a ≠ .nil → Canon term (cs a)) →
      (cs term = .nil ∨ ∃ v, cs term = .value v) → (∃ a b, a ≠ b ∧ cs a ≠ .nil ∧ cs b ≠ .nil) →
      Canon term (.full cs)

/-- A tree that may be stored below the letters already read: below the terminator
    there is at most a value, elsewhere a normal form or nothing. -/
def Below (term : α) (key : List α) (t : Tree α V) : Prop :=
  (key = [] ∧ (t = .nil ∨ ∃ v, t = .value v)) ∨ (Term term key ∧ (t = .nil ∨ Canon term t))

theorem Canon.ne_nil (h : Canon term t) : t ≠ .nil := by
  cases h <;> simp

/-- A path or a branch is stored where a key goes on. -/
theorem Below.inner (h : Below term key t)
    (hnil : t ≠ .nil) (hval : ∀ v, t ≠ .value v) : Term term key ∧ Canon term t := by
  rcases h with ⟨-, h | ⟨v, h⟩⟩ | ⟨hk, h | h⟩
  · exact absurd h hnil
  · exact absurd h (hval v)
  · exact absurd h hnil
  · exact ⟨hk, h⟩

/-- A child of a branch is stored below its letter. -/
theorem Canon.child (h : Canon term (.full cs))
    (hk : Term term (a :: key)) : Below term key (cs a) := by
  cases h with
  | full hc ht _ =>
    by_cases ha : a = term
    · subst ha; exact .inl ⟨term_cons_self.1 hk, ht⟩
    · exact .inr ⟨(term_cons ha).1 hk, (em _).imp_right (hc a ha)⟩

/-- What stands below a path that is itself in normal form. -/
theorem Canon.rest (h : Canon term (.short k t))
    (hk : Term term (k ++ key)) : Below term key t := by
  cases h with
  | leaf hterm => exact .inl ⟨hterm.eq_of_append hk, .inr ⟨_, rfl⟩⟩
  | ext _ hmem hfull => exact .inr ⟨(term_append hmem).1 hk, .inr hfull⟩

/-- The end of a path: a value below the terminator, a branch elsewhere. -/
theorem canon_short : Canon term (.short k t) ↔ (Term term k ∧ ∃ v, t = .value v) ∨
      (k ≠ [] ∧ term ∉ k ∧ Canon term t ∧ ∃ cs, t = .full cs) := by
  constructor
  · intro h
    cases h with
    | leaf h => exact .inl ⟨h, _, rfl⟩
    | ext h₁ h₂ h₃ => exact .inr ⟨h₁, h₂, h₃, _, rfl⟩
  · rintro (⟨h, v, rfl⟩ | ⟨h₁, h₂, h₃, cs, rfl⟩)
    · exact .leaf h
    · exact .ext h₁ h₂ h₃

theorem Canon.path_ne_nil (h : Canon term (.short k t)) : k ≠ [] := by
  rcases canon_short.1 h with ⟨h, -⟩ | ⟨h, -⟩
  · exact h.ne_nil
  · exact h

/-- A path may be put in front of a normal form. -/
theorem Canon.join (hk : k ≠ []) (hmem : term ∉ k) (h : Canon term t) : Canon term (join k t) := by
  cases h with
  | leaf h => exact .leaf ((term_append hmem).2 h)
  | ext _ hm hf => exact .ext (by simp [hk]) (by simp [hmem, hm]) hf
  | full hc ht h2 => exact .ext hk hmem (.full hc ht h2)

/-- A path in front of a branch. -/
theorem canon_path (hk : term ∉ k) (h : Canon term (full cs)) : Canon term (path k (full cs)) := by
  cases k with
  | nil => exact h
  | cons a k => exact .ext (by simp) hk h

end Tree

variable [DecidableEq α]

/-- The length of the longest common prefix. -/
def commonLen : List α → List α → ℕ
  | a :: as, b :: bs => if a = b then commonLen as bs + 1 else 0
  | _, _ => 0

/-- Two strings part after their common prefix. -/
theorem exists_common : ∀ as bs : List α, ∃ c as' bs', as = c ++ as' ∧ bs = c ++ bs' ∧
    commonLen as bs = c.length ∧ ∀ a as'' b bs'', as' = a :: as'' → bs' = b :: bs'' → a ≠ b
  | [], bs => ⟨[], [], bs, rfl, rfl, by simp [commonLen], by simp⟩
  | a :: as, [] => ⟨[], a :: as, [], rfl, rfl, by simp [commonLen], by simp⟩
  | a :: as, b :: bs => by
    by_cases hab : a = b
    · subst hab
      obtain ⟨c, as', bs', h₁, h₂, h₃, h₄⟩ := exists_common as bs
      exact ⟨a :: c, as', bs', by simp [← h₁], by simp [← h₂], by simp [commonLen, h₃], h₄⟩
    · refine ⟨[], a :: as, b :: bs, rfl, rfl, by simp [commonLen, hab], ?_⟩
      rintro x xs y ys ⟨⟩ ⟨⟩
      exact hab

theorem commonLen_append (k key : List α) : commonLen (k ++ key) k = k.length := by
  induction k with
  | nil => cases key <;> simp [commonLen]
  | cons a k ih => simp [commonLen, ih]

theorem commonLen_parted {a b : α} (hab : a ≠ b) (c k key : List α) :
    commonLen (c ++ b :: key) (c ++ a :: k) = c.length := by
  induction c with
  | nil => simp [commonLen, hab.symm]
  | cons x c ih => simp [commonLen, ih]

namespace Tree

/-! ## Operations -/

/-- The value at the end of the path `key`. -/
def lookup : Tree α V → List α → Option V
  | .nil, _ => none
  | .value v, [] => some v
  | .value _, _ :: _ => none
  | .short k t, key => if k <+: key then t.lookup (key.drop k.length) else none
  | .full _, [] => none
  | .full cs, a :: key => (cs a).lookup key

/-- A branch with two children. -/
def branch (a : α) (ta : Tree α V) (b : α) (tb : Tree α V) : Tree α V :=
  .full (Function.update (Function.update (fun _ => .nil) a ta) b tb)

/-- Sets the value of a key. -/
def insert : Tree α V → List α → V → Tree α V
  | .nil, key, v => path key (.value v)
  | .value w, key, v => if key = [] then .value v else .value w
  | .short k t, key, v =>
    let n := commonLen key k
    if n = k.length then .short k (t.insert (key.drop n) v)
    else
      match k.drop n, key.drop n with
      | a :: k', b :: key' => path (key.take n) (branch a (path k' t) b (path key' (.value v)))
      | _, _ => .short k t
  | .full cs, [], _ => .full cs
  | .full cs, a :: key, v => .full (Function.update cs a ((cs a).insert key v))

/-! ## Lookup -/

section
variable {term a b : α} {k key key' : List α} {t t' : Tree α V} {cs : α → Tree α V} {v : V}

theorem lookup_short_append (k key : List α) (t : Tree α V) :
    (short k t).lookup (k ++ key) = t.lookup key := by
  simp [lookup]

theorem lookup_short_of_not (h : ¬ k <+: key) : (short k t).lookup key = none := by
  simp [lookup, h]

theorem lookup_leaf (k key : List α) (v : V) :
    (short k (value v)).lookup key = if key = k then some v else none := by
  by_cases h : k <+: key
  · obtain ⟨r, rfl⟩ := h
    rw [lookup_short_append]
    cases r <;> simp [lookup]
  · rw [lookup_short_of_not h, if_neg]
    rintro rfl
    exact h List.prefix_rfl

theorem lookup_path (k key : List α) (t : Tree α V) :
    (path k t).lookup key = (short k t).lookup key := by
  cases k <;> simp [path, lookup]

theorem lookup_join (k key : List α) (t : Tree α V) :
    (join k t).lookup key = (short k t).lookup key := by
  cases t with
  | short k' t =>
    by_cases h : k <+: key
    · obtain ⟨key, rfl⟩ := h
      rw [lookup_short_append]
      by_cases h' : k' <+: key
      · obtain ⟨key, rfl⟩ := h'
        rw [lookup_short_append, join, ← List.append_assoc, lookup_short_append]
      · rw [lookup_short_of_not h', join, lookup_short_of_not]
        rwa [List.prefix_append_right_inj]
    · rw [lookup_short_of_not h, join, lookup_short_of_not]
      exact fun h' => h ((List.prefix_append k k').trans h')
  | _ => rfl

/-- Letters that part from a path lead nowhere. -/
theorem lookup_short_parted {c : List α} (hab : a ≠ b) (t : Tree α V) :
    (short (c ++ a :: k) t).lookup (c ++ b :: key) = none := by
  apply lookup_short_of_not
  rw [List.prefix_append_right_inj, List.cons_prefix_cons]
  exact fun h => hab h.1

theorem lookup_branch {ta tb : Tree α V} (c : α) (key : List α) :
    (branch a ta b tb).lookup (c :: key)
      = if c = b then tb.lookup key else if c = a then ta.lookup key else none := by
  simp only [branch, lookup, Function.update_apply]
  split_ifs <;> rfl

/-! ## Insertion -/

/-- How a key and a path part that is not a part of the key. -/
theorem exists_parted (hk : Term term key) (ht : Canon term (short k t))
    (hn : commonLen key k ≠ k.length) :
    ∃ c a k' b key', k = c ++ a :: k' ∧ key = c ++ b :: key' ∧ commonLen key k = c.length ∧
      a ≠ b := by
  obtain ⟨c, key', k', rfl, rfl, hlen, hne⟩ := exists_common key k
  rcases k' with _ | ⟨a, k'⟩
  · exact absurd (by simpa using hlen) hn
  rcases key' with _ | ⟨b, key'⟩
  · -- the key would be a part of the path
    exfalso
    rw [List.append_nil] at hk
    rcases canon_short.1 ht with ⟨hterm, -⟩ | ⟨-, hmem, -⟩
    · simpa using hk.eq_of_append hterm
    · exact hmem (by simp [hk.mem])
  · exact ⟨c, a, k', b, key', rfl, rfl, hlen, (hne b key' a k' rfl rfl).symm⟩

/-- How a key stands to a path in normal form: they part, or the path is the key, or
    it leads to a branch below which the key goes on. -/
theorem Canon.cases_key (h : Canon term (short k t)) (hk : Term term key) :
    (∃ c a k' b key', k = c ++ a :: k' ∧ key = c ++ b :: key' ∧ a ≠ b) ∨
      (k = key ∧ ∃ v, t = .value v) ∨
      (∃ r cs, key = k ++ r ∧ t = .full cs ∧ k ≠ [] ∧ term ∉ k ∧ Term term r ∧ Canon term t) := by
  by_cases hn : commonLen key k = k.length
  · obtain ⟨c, r, k', rfl, rfl, hlen, -⟩ := exists_common key k
    obtain rfl : k' = [] := by
      rw [hlen, List.length_append] at hn
      exact List.eq_nil_of_length_eq_zero (by omega)
    rw [List.append_nil] at h ⊢
    rcases canon_short.1 h with ⟨hterm, hv⟩ | ⟨hne, hmem, hfull, cs, rfl⟩
    · exact .inr (.inl ⟨by simp [hterm.eq_of_append hk], hv⟩)
    · exact .inr (.inr ⟨r, cs, rfl, rfl, hne, hmem, (term_append hmem).1 hk, hfull⟩)
  · obtain ⟨c, a, k', b, key', h₁, h₂, -, hab⟩ := exists_parted hk h hn
    exact .inl ⟨c, a, k', b, key', h₁, h₂, hab⟩

theorem insert_short_append (k key : List α) (t : Tree α V) (v : V) :
    (short k t).insert (k ++ key) v = short k (t.insert key v) := by
  rw [insert]
  simp [commonLen_append]

theorem insert_leaf (k : List α) (w v : V) :
    (short k (value w)).insert k v = short k (value v) := by
  have := insert_short_append k [] (value w) v
  rw [List.append_nil] at this
  rw [this]; rfl

theorem insert_short_parted {c : List α} (hab : a ≠ b) (t : Tree α V) (v : V) :
    (short (c ++ a :: k) t).insert (c ++ b :: key) v
      = path c (branch a (path k t) b (path key (.value v))) := by
  rw [insert]
  simp [commonLen_parted hab]

/-- A branch that is created by a key that parts from a path. -/
theorem canon_branch {ta tb : Tree α V} (hab : a ≠ b)
    (ha : if a = term then ∃ v, ta = .value v else Canon term ta)
    (hb : if b = term then ∃ v, tb = .value v else Canon term tb) :
    Canon term (branch a ta b tb) := by
  have hne : ∀ {x : α} {t : Tree α V}, (if x = term then ∃ v, t = .value v else Canon term t) →
      t ≠ .nil := by
    intro x t h
    split_ifs at h
    · obtain ⟨v, rfl⟩ := h; simp
    · exact h.ne_nil
  refine .full (fun x hx hnil => ?_) ?_ ⟨a, b, hab, ?_, ?_⟩
  · simp only [Function.update_apply] at hnil ⊢
    split_ifs at hnil ⊢ with h₁ h₂
    · subst h₁; rwa [if_neg hx] at hb
    · subst h₂; rwa [if_neg hx] at ha
    · exact absurd rfl hnil
  · simp only [Function.update_apply]
    split_ifs with h₁ h₂
    · rw [if_pos h₁.symm] at hb; exact .inr hb
    · rw [if_pos h₂.symm] at ha; exact .inr ha
    · exact .inl rfl
  · simpa [Function.update_of_ne hab] using hne ha
  · simpa using hne hb

/-- What stands below the first letter of a path. -/
theorem Canon.tail (h : Canon term (short (a :: k) t)) :
    if a = term then ∃ v, path k t = .value v else Canon term (path k t) := by
  rcases canon_short.1 h with ⟨hterm, v, rfl⟩ | ⟨-, hmem, hfull, cs, rfl⟩
  · split_ifs with ha
    · subst ha
      rw [term_cons_self.1 hterm]
      exact ⟨v, rfl⟩
    · have hk := (term_cons ha).1 hterm
      cases k with
      | nil => exact absurd rfl hk.ne_nil
      | cons b k => exact .leaf hk
  · have ha : a ≠ term := by rintro rfl; simp at hmem
    rw [if_neg ha]
    exact canon_path (fun h => hmem (by simp [h])) hfull

/-- The children of a branch after one has been replaced. -/
theorem Canon.update (h : Canon term (.full cs))
    (hk : Term term (a :: key)) (hb : Below term key t') :
    (∀ z, z ≠ term → Function.update cs a t' z ≠ .nil → Canon term (Function.update cs a t' z)) ∧
      (Function.update cs a t' term = .nil ∨ ∃ v, Function.update cs a t' term = .value v) := by
  cases h with
  | full hc ht _ =>
    constructor
    · intro z hz hzn
      by_cases hza : z = a
      · subst hza
        rw [Function.update_self] at hzn ⊢
        rcases hb with ⟨rfl, -⟩ | ⟨-, hb⟩
        · exact absurd rfl ((term_cons hz).1 hk).ne_nil
        · exact hb.resolve_left hzn
      · rw [Function.update_of_ne hza] at hzn ⊢
        exact hc z hz hzn
    · by_cases hta : term = a
      · subst hta
        rw [Function.update_self]
        rcases hb with ⟨-, hb⟩ | ⟨hb, -⟩
        · exact hb
        · rw [term_cons_self.1 hk] at hb
          exact absurd rfl hb.ne_nil
      · rw [Function.update_of_ne hta]
        exact ht

theorem canon_insert (h : Below term key t) :
    Below term key (t.insert key v) ∧ t.insert key v ≠ .nil := by
  induction t generalizing key with
  | nil =>
    rcases h with ⟨rfl, -⟩ | ⟨hk, -⟩
    · exact ⟨.inl ⟨rfl, .inr ⟨v, rfl⟩⟩, by simp [insert, path]⟩
    · rw [insert]
      cases key with
      | nil => exact absurd rfl hk.ne_nil
      | cons a key => exact ⟨.inr ⟨hk, .inr (.leaf hk)⟩, by simp [path]⟩
  | value w =>
    rcases h with ⟨rfl, -⟩ | ⟨hk, h | h⟩
    · exact ⟨.inl ⟨rfl, .inr ⟨v, by simp [insert]⟩⟩, by simp [insert]⟩
    · cases h
    · cases h
  | short k t ih =>
    replace ⟨hk, h⟩ := h.inner (by simp) (by simp)
    suffices hc : Canon term ((short k t).insert key v) from ⟨.inr ⟨hk, .inr hc⟩, hc.ne_nil⟩
    rcases h.cases_key hk with ⟨c, a, k', b, key', rfl, rfl, hab⟩ | ⟨rfl, w, rfl⟩ |
      ⟨r, cs, rfl, rfl, hne, hmem, hr, hfull⟩
    · rw [insert_short_parted hab]
      have hc : term ∉ c := hk.notMem_of_append
      rw [term_append hc] at hk
      have hka : Canon term (short (a :: k') t) := by
        rcases canon_short.1 h with ⟨hterm, hv⟩ | ⟨-, hmem, hfull⟩
        · exact canon_short.2 (.inl ⟨(term_append hc).1 hterm, hv⟩)
        · exact canon_short.2 (.inr ⟨by simp, fun hm => hmem (by simp [hm]), hfull⟩)
      exact canon_path hc (canon_branch hab hka.tail (Canon.leaf hk).tail)
    · rw [insert_leaf]
      exact .leaf hk
    · rw [insert_short_append]
      obtain ⟨hb, hnil⟩ := ih (.inr ⟨hr, .inr hfull⟩)
      rcases hb with ⟨rfl, -⟩ | ⟨-, hb | hb⟩
      · exact absurd rfl hr.ne_nil
      · exact absurd hb hnil
      · cases r with
        | nil => exact absurd rfl hr.ne_nil
        | cons a r => exact .ext hne hmem hb
  | full cs ih =>
    replace ⟨hk, h⟩ := h.inner (by simp) (by simp)
    suffices hc : Canon term ((full cs).insert key v) from ⟨.inr ⟨hk, .inr hc⟩, hc.ne_nil⟩
    cases key with
    | nil => exact absurd rfl hk.ne_nil
    | cons a key =>
      obtain ⟨hb, hnil⟩ := ih a (h.child hk)
      rw [insert]
      cases h with
      | full hc ht h2 =>
        obtain ⟨x, y, hxy, hx, hy⟩ := h2
        have hupd : ∀ z, cs z ≠ .nil → Function.update cs a ((cs a).insert key v) z ≠ .nil := by
          intro z hz
          by_cases hza : z = a
          · subst hza; simpa using hnil
          · simpa [Function.update_of_ne hza] using hz
        obtain ⟨hc', ht'⟩ := Canon.update (.full hc ht ⟨x, y, hxy, hx, hy⟩) hk hb
        exact .full hc' ht' ⟨x, y, hxy, hupd x hx, hupd y hy⟩

/-- A path keeps what the tree below it does for one key. -/
theorem lookup_short_update {x : Option V} (hmem : term ∉ k) (hk' : Term term key')
    (ih : ∀ r, Term term r → t'.lookup r = if r = key then x else t.lookup r) :
    (short k t').lookup key' = if key' = k ++ key then x else (short k t).lookup key' := by
  by_cases hp : k <+: key'
  · obtain ⟨r', rfl⟩ := hp
    rw [lookup_short_append, lookup_short_append, ih r' ((term_append hmem).1 hk')]
    simp
  · rw [lookup_short_of_not hp, lookup_short_of_not hp, if_neg]
    rintro rfl
    exact hp (List.prefix_append k key)

/-- A branch keeps what a child does for one key. -/
theorem lookup_full_update {x : Option V} (hk : Term term (a :: key)) (hk' : Term term key')
    (ih : ∀ r, r = [] ∧ key = [] ∨ Term term r →
      t'.lookup r = if r = key then x else (cs a).lookup r) :
    (full (Function.update cs a t')).lookup key' =
      if key' = a :: key then x else (full cs).lookup key' := by
  cases key' with
  | nil => exact absurd rfl hk'.ne_nil
  | cons b key' =>
    rw [lookup, lookup, Function.update_apply]
    by_cases hba : b = a
    · subst hba
      rw [if_pos rfl, ih key']
      · simp
      · by_cases hb : b = term
        · subst hb
          exact .inl ⟨term_cons_self.1 hk', term_cons_self.1 hk⟩
        · exact .inr ((term_cons hb).1 hk')
    · rw [if_neg hba, if_neg (by simpa using fun h => absurd h hba)]

theorem lookup_insert (h : Below term key t) (key' : List α)
    (hk' : key' = [] ∧ key = [] ∨ Term term key') :
    (t.insert key v).lookup key' = if key' = key then some v else t.lookup key' := by
  induction t generalizing key key' with
  | nil =>
    rw [insert, lookup_path, lookup_leaf, lookup]
  | value w =>
    rcases h with ⟨rfl, -⟩ | ⟨hk, h | h⟩
    · cases key' <;> simp [insert, lookup]
    · cases h
    · cases h
  | short k t ih =>
    replace ⟨hk, h⟩ := h.inner (by simp) (by simp)
    replace hk' : Term term key' := hk'.resolve_left fun h => hk.ne_nil h.2
    rcases h.cases_key hk with ⟨c, a, k', b, key₁, rfl, rfl, hab⟩ | ⟨rfl, w, rfl⟩ |
      ⟨r, cs, rfl, rfl, hne, hmem, hr, hfull⟩
    · rw [insert_short_parted hab, lookup_path]
      by_cases hp : c <+: key'
      · obtain ⟨r, rfl⟩ := hp
        rw [lookup_short_append]
        cases r with
        | nil =>
          have hc : term ∉ c := hk.notMem_of_append
          exact absurd (by simpa using hk'.mem) hc
        | cons d r =>
          rw [lookup_branch]
          by_cases hdb : d = b
          · subst hdb
            rw [if_pos rfl, lookup_path, lookup_leaf, lookup_short_parted hab]
            simp
          · have hne : c ++ d :: r ≠ c ++ b :: key₁ := by simpa using fun h => absurd h hdb
            rw [if_neg hdb, if_neg hne]
            by_cases hda : d = a
            · subst hda
              rw [if_pos rfl, lookup_path]
              by_cases hpr : k' <+: r
              · obtain ⟨r', rfl⟩ := hpr
                rw [lookup_short_append, show c ++ d :: (k' ++ r') = (c ++ d :: k') ++ r' by simp,
                  lookup_short_append]
              · rw [lookup_short_of_not hpr, lookup_short_of_not]
                rw [List.prefix_append_right_inj, List.cons_prefix_cons]
                exact fun h => hpr h.2
            · rw [if_neg hda, lookup_short_parted (Ne.symm hda)]
      · rw [lookup_short_of_not hp, if_neg, lookup_short_of_not]
        · exact fun h' => hp ((List.prefix_append c _).trans h')
        · rintro rfl
          exact hp (List.prefix_append c _)
    · rw [insert_leaf, lookup_leaf, lookup_leaf]
      split_ifs <;> rfl
    · rw [insert_short_append]
      exact lookup_short_update hmem hk' fun r' hr' => ih (.inr ⟨hr, .inr hfull⟩) r' (.inr hr')
  | full cs ih =>
    replace ⟨hk, h⟩ := h.inner (by simp) (by simp)
    replace hk' : Term term key' := hk'.resolve_left fun h => hk.ne_nil h.2
    cases key with
    | nil => exact absurd rfl hk.ne_nil
    | cons a key => exact lookup_full_update hk hk' fun r hr => ih a (h.child hk) r hr

/-! ## Uniqueness -/

/-- A normal form is not empty. -/
theorem Canon.exists_key (h : Canon term t) : ∃ key v, Term term key ∧ t.lookup key = some v := by
  induction h with
  | @leaf k v hk => exact ⟨k, v, hk, by rw [lookup_leaf, if_pos rfl]⟩
  | @ext k cs _ hmem _ ih =>
    obtain ⟨key, v, hk, hv⟩ := ih
    exact ⟨k ++ key, v, (term_append hmem).2 hk, by rw [lookup_short_append]; exact hv⟩
  | @full cs _ ht h2 ih =>
    obtain ⟨a, -, -, ha, -⟩ := h2
    by_cases hat : a = term
    · subst hat
      obtain ⟨v, hv⟩ := ht.resolve_left ha
      exact ⟨[a], v, term_cons_self.2 rfl, by simp [lookup, hv]⟩
    · obtain ⟨key, v, hk, hv⟩ := ih a hat ha
      exact ⟨a :: key, v, (term_cons hat).2 hk, hv⟩

/-- Below every child of a branch there is a key. -/
theorem Canon.exists_key_child (h : Canon term (.full cs))
    (ha : cs a ≠ .nil) : ∃ key v, Term term (a :: key) ∧ (cs a).lookup key = some v := by
  cases h with
  | full hc ht _ =>
    by_cases hat : a = term
    · subst hat
      obtain ⟨v, hv⟩ := ht.resolve_left ha
      exact ⟨[], v, term_cons_self.2 rfl, by simp [lookup, hv]⟩
    · obtain ⟨key, v, hk, hv⟩ := (hc a hat ha).exists_key
      exact ⟨key, v, (term_cons hat).2 hk, hv⟩

/-- The keys of a branch do not all begin with the same letter. -/
theorem Canon.exists_two (h : Canon term (.full cs)) (x : α) :
    ∃ a key v, a ≠ x ∧ Term term (a :: key) ∧ (cs a).lookup key = some v := by
  obtain ⟨a, b, hab, ha, hb⟩ : ∃ a b, a ≠ b ∧ cs a ≠ .nil ∧ cs b ≠ .nil := by
    cases h with | full _ _ h2 => exact h2
  by_cases hax : a = x
  · obtain ⟨key, v, hk, hv⟩ := h.exists_key_child hb
    exact ⟨b, key, v, fun hbx => hab (hax.trans hbx.symm), hk, hv⟩
  · obtain ⟨key, v, hk, hv⟩ := h.exists_key_child ha
    exact ⟨a, key, v, hax, hk, hv⟩

/-- A path is a prefix of all keys of its tree. -/
theorem prefix_of_lookup (h : (short k t).lookup key = some v) : k <+: key := by
  by_contra hp
  rw [lookup_short_of_not hp] at h
  cases h

/-- The two trees map the same keys to the same values. -/
def Same (term : α) (t t' : Tree α V) : Prop := ∀ key, Term term key → t.lookup key = t'.lookup key

theorem Same.symm (h : Same term t t') : Same term t' t := fun key hk => (h key hk).symm

/-- A branch has no path in common. -/
theorem Canon.not_same_short (h : Canon term (.full cs))
    (hk : k ≠ []) : ¬ Same term (.full cs) (short k t) := by
  intro hs
  obtain ⟨x, k, rfl⟩ := List.exists_cons_of_ne_nil hk
  obtain ⟨a, key, v, hax, hkey, hv⟩ := h.exists_two x
  have hp := prefix_of_lookup ((hs _ hkey).symm.trans hv)
  rw [List.cons_prefix_cons] at hp
  exact hax hp.1.symm

/-- The path to a branch is the longest common prefix of its keys. -/
theorem Canon.not_same_longer {k' : List α} {x : α} (h : Canon term (.full cs)) (hmem : term ∉ k) :
    ¬ Same term (short k (.full cs)) (short (k ++ x :: k') t) := by
  intro hs
  obtain ⟨a, key, v, hax, hkey, hv⟩ := h.exists_two x
  have hl : (short (k ++ x :: k') t).lookup (k ++ a :: key) = some v := by
    rw [← hs _ ((term_append hmem).2 hkey), lookup_short_append]; exact hv
  have hp := prefix_of_lookup hl
  rw [List.prefix_append_right_inj, List.cons_prefix_cons] at hp
  exact hax hp.1.symm

/-- A leaf has one key, a branch has two. -/
theorem Canon.not_same_leaf {k' : List α} (h : Canon term (.full cs)) (hmem : term ∉ k) :
    ¬ Same term (short k (.full cs)) (short k' (value v)) := by
  intro hs
  have key_eq : ∀ {a : α} {key : List α} {w : V}, Term term (a :: key) →
      (cs a).lookup key = some w → k ++ a :: key = k' := by
    intro a key w hk hw
    have h₁ := hs _ ((term_append hmem).2 hk)
    rw [lookup_short_append, lookup_leaf, lookup, hw] at h₁
    by_contra hne
    rw [if_neg hne] at h₁
    cases h₁
  obtain ⟨key, w, hkey, hw⟩ := h.exists_key
  cases key with
  | nil => exact absurd rfl hkey.ne_nil
  | cons x key =>
    obtain ⟨a, key', w', hax, hkey', hw'⟩ := h.exists_two x
    have h₁ := (key_eq hkey hw).trans (key_eq hkey' hw').symm
    simp only [List.append_cancel_left_eq, List.cons.injEq] at h₁
    exact hax h₁.1.symm

/-- A branch has no child where a tree with the same keys has none. -/
theorem Canon.nil_of_same {cs' : α → Tree α V} (h' : Canon term (.full cs'))
    (hs : Same term (.full cs) (.full cs')) (hn : cs a = .nil) : cs' a = .nil := by
  by_contra hne
  obtain ⟨key, v, hk, hv⟩ := h'.exists_key_child hne
  have hnone := hs (a :: key) hk
  rw [lookup, lookup, hn, hv] at hnone
  cases hnone

/-- **The normal form is determined by what it maps.** -/
theorem Canon.unique (h : Canon term t) (h' : Canon term t') (hs : Same term t t') : t = t' := by
  induction h generalizing t' with
  | @leaf k v hk =>
    cases h' with
    | @leaf k' v' hk' =>
      have h₁ := hs k hk
      rw [lookup_leaf, lookup_leaf, if_pos rfl] at h₁
      by_cases hkk : k = k'
      · subst hkk; simpa using h₁
      · rw [if_neg hkk] at h₁; cases h₁
    | ext _ hmem hf => exact absurd hs.symm (hf.not_same_leaf hmem)
    | full hc ht h2 => exact absurd hs.symm (Canon.not_same_short (.full hc ht h2) hk.ne_nil)
  | @ext k cs hne hmem hf ih =>
    cases h' with
    | leaf _ => exact absurd hs (hf.not_same_leaf hmem)
    | @ext k' cs' hne' hmem' hf' =>
      -- both paths are prefixes of one key, so one is a prefix of the other
      obtain ⟨key, v, hkey, hv⟩ := hf.exists_key
      have hkey' := (term_append hmem).2 hkey
      have hp : k' <+: k ++ key := prefix_of_lookup (t := .full cs') (v := v) (by
        rw [← hs _ hkey', lookup_short_append]; exact hv)
      obtain rfl : k = k' := by
        rcases List.prefix_or_prefix_of_prefix hp (List.prefix_append k key) with
          ⟨_ | ⟨x, r⟩, rfl⟩ | ⟨_ | ⟨x, r⟩, rfl⟩
        · exact List.append_nil k'
        · exact absurd hs.symm (hf'.not_same_longer hmem')
        · exact (List.append_nil k).symm
        · exact absurd hs (hf.not_same_longer hmem)
      rw [ih hf' fun key hk => by
        have := hs (k ++ key) ((term_append hmem).2 hk)
        rwa [lookup_short_append, lookup_short_append] at this]
    | full hc ht h2 => exact absurd hs.symm (Canon.not_same_short (.full hc ht h2) hne)
  | @full cs hc ht h2 ih =>
    have hf : Canon term (.full cs) := .full hc ht h2
    cases h' with
    | leaf hk => exact absurd hs (hf.not_same_short hk.ne_nil)
    | ext hne _ _ => exact absurd hs (hf.not_same_short hne)
    | @full cs' hc' ht' h2' =>
      have hf' : Canon term (.full cs') := .full hc' ht' h2'
      congr 1
      funext a
      have hsame : ∀ {key : List α}, Term term (a :: key) →
          (cs a).lookup key = (cs' a).lookup key := fun hk => hs _ hk
      by_cases hn : cs a = .nil
      · rw [hn, hf'.nil_of_same hs hn]
      · have hn' := fun h => hn (hf.nil_of_same hs.symm h)
        by_cases hat : a = term
        · subst hat
          obtain ⟨v, hv⟩ := ht.resolve_left hn
          obtain ⟨v', hv'⟩ := ht'.resolve_left hn'
          have := hsame (term_cons_self.2 rfl)
          rw [hv, hv'] at this ⊢
          simpa [lookup] using this
        · exact ih a hat hn (hc' a hat hn') fun key hk => hsame ((term_cons hat).2 hk)

end

/-! ## Deletion -/

variable [FinEnum α]

/-- A branch, or a path if it has only one child. -/
def shrink (cs : α → Tree α V) : Tree α V :=
  match letters cs with
  | [a] => join [a] (cs a)
  | _ => .full cs

/-- Removes a key. -/
def delete : Tree α V → List α → Tree α V
  | .nil, _ => .nil
  | .value _, _ => .nil
  | .short k t, key =>
    let n := commonLen key k
    if n < k.length then .short k t
    else if n = key.length then .nil
    else join k (t.delete (key.drop k.length))
  | .full cs, [] => .full cs
  | .full cs, a :: key => shrink (Function.update cs a ((cs a).delete key))

/-- A branch with one child is a path. -/
theorem lookup_shrink (cs : α → Tree α V) (key : List α) :
    (shrink cs).lookup key = (full cs).lookup key := by
  unfold shrink
  split
  · next a ha =>
    rw [lookup_join]
    cases key with
    | nil => simp [lookup]
    | cons b key =>
      by_cases hb : b = a
      · subst hb; simp [lookup]
      · have hnil : cs b = .nil := by
          by_contra hne
          have := mem_letters.2 hne
          rw [ha] at this
          exact hb (by simpa using this)
        simp [lookup, hnil, Ne.symm hb]
  · rfl

section
variable {term a b : α} {k key : List α} {t : Tree α V} {cs : α → Tree α V}

/-- A branch whose children are in normal form, of which at least one is left. -/
theorem canon_shrink (hc : ∀ a, a ≠ term → cs a ≠ .nil → Canon term (cs a))
    (ht : cs term = .nil ∨ ∃ v, cs term = .value v) (hne : ∃ a, cs a ≠ .nil) :
    Canon term (shrink cs) := by
  unfold shrink
  split
  · next x hx =>
    have hxn : cs x ≠ .nil := mem_letters.1 (by simp [hx])
    by_cases hxt : x = term
    · subst hxt
      obtain ⟨v, hv⟩ := ht.resolve_left hxn
      rw [hv]
      exact .leaf (term_cons_self.2 rfl)
    · exact (hc x hxt hxn).join (by simp) (by simpa using Ne.symm hxt)
  · next hl =>
    obtain ⟨a, ha⟩ := hne
    have hnd := nodup_letters cs
    have ha' := mem_letters.2 ha
    rcases hcs : letters cs with _ | ⟨x, _ | ⟨y, l⟩⟩
    · rw [hcs] at ha'; simp at ha'
    · exact absurd hcs (hl x)
    · refine .full hc ht ⟨x, y, ?_, mem_letters.1 (by simp [hcs]), mem_letters.1 (by simp [hcs])⟩
      rw [hcs] at hnd
      rintro rfl
      simp at hnd

omit [DecidableEq α] in
/-- A branch in normal form has more than one child. -/
theorem Canon.shrink_eq (h : Canon term (.full cs)) : shrink cs = .full cs := by
  cases h with
  | full _ _ h2 =>
    obtain ⟨a, b, hab, ha, hb⟩ := h2
    unfold shrink
    split
    · next x hx =>
      have ha' := mem_letters.2 ha
      have hb' := mem_letters.2 hb
      rw [hx, List.mem_singleton] at ha' hb'
      exact absurd (ha'.trans hb'.symm) hab
    · rfl

omit [DecidableEq α] in
theorem shrink_ne_nil (cs : α → Tree α V) : shrink cs ≠ .nil := by
  unfold shrink
  split
  · next a _ => cases h : cs a <;> simp [join]
  · simp

/-- What is left below the terminator of a branch. -/
theorem Canon.value_of_delete {r : List α} (h : Canon term (.full cs))
    (hk : Term term (a :: r)) (hne : Function.update cs a ((cs a).delete r) term ≠ .nil) :
    ∃ v, Function.update cs a ((cs a).delete r) term = .value v := by
  cases h with
  | full _ ht _ =>
    by_cases ha : term = a
    · subst ha
      rw [term_cons_self.1 hk, Function.update_self] at hne
      rcases ht with h0 | ⟨v, hv⟩
      · rw [h0] at hne
        exact absurd rfl hne
      · rw [hv] at hne
        exact absurd rfl hne
    · rw [Function.update_of_ne ha] at hne ⊢
      exact ht.resolve_left hne

theorem delete_short_append {r : List α} (hr : r ≠ []) (t : Tree α V) :
    (short k t).delete (k ++ r) = join k (t.delete r) := by
  have : r.length ≠ 0 := by simpa using hr
  rw [delete]
  simp [commonLen_append, this]

theorem delete_short_self (k : List α) (t : Tree α V) : (short k t).delete k = .nil := by
  have hlen := commonLen_append k []
  rw [List.append_nil] at hlen
  rw [delete]
  simp [hlen]

theorem delete_short_parted {c : List α} (hab : a ≠ b) (t : Tree α V) :
    (short (c ++ a :: k) t).delete (c ++ b :: key) = short (c ++ a :: k) t := by
  rw [delete]
  simp [commonLen_parted hab]

theorem canon_delete (h : Below term key t) : Below term key (t.delete key) := by
  induction t generalizing key with
  | nil => exact h
  | value w => exact h.imp (fun h => ⟨h.1, .inl rfl⟩) fun h => ⟨h.1, .inl rfl⟩
  | short k t ih =>
    replace ⟨hk, h⟩ := h.inner (by simp) (by simp)
    rcases h.cases_key hk with ⟨c, a, k', b, key', rfl, rfl, hab⟩ | ⟨rfl, -⟩ |
      ⟨r, cs, rfl, rfl, hne, hmem, hr, hfull⟩
    · rw [delete_short_parted hab]
      exact .inr ⟨hk, .inr h⟩
    · rw [delete_short_self]
      exact .inr ⟨hk, .inl rfl⟩
    · rw [delete_short_append hr.ne_nil]
      refine .inr ⟨hk, .inr (Canon.join hne hmem ?_)⟩
      rcases ih (.inr ⟨hr, .inr hfull⟩) with ⟨rfl, -⟩ | ⟨-, hd | hd⟩
      · exact absurd rfl hr.ne_nil
      · cases r with
        | nil => exact absurd rfl hr.ne_nil
        | cons a r => exact absurd hd (shrink_ne_nil _)
      · exact hd
  | full cs ih =>
    replace ⟨hk, h⟩ := h.inner (by simp) (by simp)
    cases key with
    | nil => exact absurd rfl hk.ne_nil
    | cons a key =>
      have hb := ih a (h.child hk)
      rw [delete]
      refine .inr ⟨hk, .inr ?_⟩
      cases h with
      | full hc ht h2 =>
        obtain ⟨hc', ht'⟩ := Canon.update (.full hc ht h2) hk hb
        refine canon_shrink hc' ht' ?_
        -- of two children only the one below `a` can be gone
        obtain ⟨x, y, hxy, hx, hy⟩ := h2
        by_cases hxa : x = a
        · exact ⟨y, by rw [Function.update_of_ne (by rintro rfl; exact hxy hxa)]; exact hy⟩
        · exact ⟨x, by rw [Function.update_of_ne hxa]; exact hx⟩

theorem lookup_delete (h : Below term key t) (key' : List α)
    (hk' : key' = [] ∧ key = [] ∨ Term term key') :
    (t.delete key).lookup key' = if key' = key then none else t.lookup key' := by
  induction t generalizing key key' with
  | nil => simp [delete, lookup]
  | value w =>
    rcases h with ⟨rfl, -⟩ | ⟨hk, h | h⟩
    · cases key' <;> simp [delete, lookup]
    · cases h
    · cases h
  | short k t ih =>
    replace ⟨hk, h⟩ := h.inner (by simp) (by simp)
    replace hk' : Term term key' := hk'.resolve_left fun h => hk.ne_nil h.2
    rcases h.cases_key hk with ⟨c, a, k', b, key₁, rfl, rfl, hab⟩ | ⟨rfl, v, rfl⟩ |
      ⟨r, cs, rfl, rfl, hne, hmem, hr, hfull⟩
    · rw [delete_short_parted hab]
      split_ifs with heq
      · rw [heq, lookup_short_parted hab]
      · rfl
    · rw [delete_short_self, lookup, lookup_leaf]
      split_ifs <;> rfl
    · rw [delete_short_append hr.ne_nil, lookup_join]
      exact lookup_short_update hmem hk' fun r' hr' => ih (.inr ⟨hr, .inr hfull⟩) r' (.inr hr')
  | full cs ih =>
    replace ⟨hk, h⟩ := h.inner (by simp) (by simp)
    replace hk' : Term term key' := hk'.resolve_left fun h => hk.ne_nil h.2
    cases key with
    | nil => exact absurd rfl hk.ne_nil
    | cons a key =>
      rw [delete, lookup_shrink]
      exact lookup_full_update hk hk' fun r hr => ih a (h.child hk) r hr

end

end Tree

end Patricia

/-
  Random nodes of the table (p2p/discover/table.go, `ReadRandomNodes`).

  The buckets that have entries are shuffled, and their heads move to the buffer in turn.  An
  index out of range is a panic.  The heads that are moved are different nodes of the table
  (`fill_spec`), but the number that is returned is one more than that of the nodes in the
  buffer if the buffer ends first (`readRandomNodes_exact`).
-/
import Mathlib.Tactic

namespace GoEthereum.Discover.Sampling

variable {N : Type} {buckets : List (List N)}

/-! ## Model -/

/-- An index is out of range. -/
inductive Panic where
  | index

/-- `Table`: a node is in one bucket, once. -/
structure Table (N : Type) where
  buckets : List (List N)
  initDone : Bool
  distinct : buckets.flatten.Nodup

/-- `b[i], b[j] = b[j], b[i]` -/
def swapAt {α : Type} (b : List α) (i j : ℕ) : Except Panic (List α) :=
  match b[i]?, b[j]? with
  | some x, some y => .ok ((b.set i y).set j x)
  | _, _ => .error .index

/-- The loop that shuffles, from index `i` down; `intn` are the outcomes of the generator, of which
    `Intn` takes the remainder. -/
def shuffle (intn : ℕ → ℕ) : ℕ → List (List N) → Except Panic (List (List N))
  | 0, buckets => .ok buckets
  | i + 1, buckets => swapAt buckets (i + 1) (intn (i + 1) % buckets.length) >>= shuffle intn i

/-- `buckets[j] = b[1:]`, and a bucket that is empty then goes. -/
def dropHead (buckets : List (List N)) (j : ℕ) (rest : List N) : List (List N) :=
  if rest.length = 0 then (buckets.set j rest).eraseIdx j else buckets.set j rest

/-- The loop that moves heads into the buffer, with `slots` places left in it.  The result is the
    index at which it ends. -/
def fill : ℕ → ℕ → ℕ → List (List N) → List N → Except Panic (ℕ × List N)
  | 0, i, _, _, buf => .ok (i, buf)
  | slots + 1, i, j, buckets, buf =>
    match buckets[j]? with
    | none | some [] => .error .index
    | some (x :: rest) =>
      if i < buf.length then
        let buf := buf.set i x
        let buckets := dropHead buckets j rest
        if buckets.length = 0 then .ok (i, buf)
        else fill slots (i + 1) ((j + 1) % buckets.length) buckets buf
      else .error .index

/-- `ReadRandomNodes`: the number that is returned and the buffer. -/
def Table.readRandomNodes (tab : Table N) (intn : ℕ → ℕ) (buf : List N) :
    Except Panic (ℕ × List N) :=
  if tab.initDone then
    let buckets := tab.buckets.filter fun b => 0 < b.length
    if buckets.length = 0 then .ok (0, buf)
    else do
      let buckets ← shuffle intn (buckets.length - 1) buckets
      let (i, buf) ← fill buf.length 0 0 buckets buf
      .ok (i + 1, buf)
  else .ok (0, buf)

/-- The entries of the table. -/
def Table.entries (tab : Table N) : List N := tab.buckets.flatten

/-! ## Shuffling -/

theorem swapAt_perm {α : Type} {b : List α} {i j : ℕ} (hi : i < b.length) (hj : j < b.length) :
    ∃ b', swapAt b i j = .ok b' ∧ b'.Perm b := by
  refine ⟨(b.set i b[j]).set j b[i], ?_, ?_⟩
  · simp only [swapAt, List.getElem?_eq_getElem hi, List.getElem?_eq_getElem hj]
  · exact List.set_set_perm hi hj

theorem shuffle_perm (intn : ℕ → ℕ) {i : ℕ} (hi : i < buckets.length) :
    ∃ b, shuffle intn i buckets = .ok b ∧ b.Perm buckets := by
  induction i generalizing buckets with
  | zero => exact ⟨buckets, rfl, .refl _⟩
  | succ i ih =>
    obtain ⟨b, hb, hperm⟩ := swapAt_perm hi (Nat.mod_lt (intn (i + 1)) (Nat.zero_lt_of_lt hi))
    obtain ⟨b', hb', hperm'⟩ := ih (show i < b.length by rw [hperm.length_eq]; omega)
    exact ⟨b', by rw [shuffle, hb]; exact hb', hperm'.trans hperm⟩

/-! ## Moving heads -/

theorem dropHead_append (pre post : List (List N)) (b rest : List N) :
    dropHead (pre ++ b :: post) pre.length rest =
      pre ++ (if rest = [] then post else rest :: post) := by
  rw [dropHead, List.set_append_right _ _ le_rfl, Nat.sub_self, List.set_cons_zero]
  split_ifs with h₁ h₂ h₂
  · rw [List.eraseIdx_append_of_length_le le_rfl, Nat.sub_self, List.eraseIdx_cons_zero]
  · exact absurd (List.length_eq_zero_iff.1 h₁) h₂
  · exact absurd (List.length_eq_zero_iff.2 h₂) h₁
  · rfl

theorem dropHead_spec {j : ℕ} (hj : j < buckets.length)
    (hne : ∀ b ∈ buckets, b ≠ []) : ∃ x rest, buckets[j]? = some (x :: rest) ∧
      (x :: (dropHead buckets j rest).flatten).Perm buckets.flatten ∧
      ∀ b ∈ dropHead buckets j rest, b ≠ [] := by
  obtain ⟨pre, b, post, rfl, rfl⟩ : ∃ pre b post, buckets = pre ++ b :: post ∧ pre.length = j :=
    ⟨buckets.take j, buckets[j], buckets.drop (j + 1),
      by rw [List.cons_getElem_drop_succ, List.take_append_drop], List.length_take_of_le hj.le⟩
  obtain ⟨x, rest, rfl⟩ := List.exists_cons_of_ne_nil (hne b (by simp))
  refine ⟨x, rest, by simp, ?_, ?_⟩ <;> rw [dropHead_append]
  · have hflat : (pre ++ if rest = [] then post else rest :: post).flatten =
        pre.flatten ++ (rest ++ post.flatten) := by
      split_ifs with h <;> simp [h]
    rw [hflat, List.flatten_append, List.flatten_cons]
    exact List.perm_middle.symm
  · intro b hb
    split_ifs at hb with h
    · exact hne b (by simp at hb ⊢; tauto)
    · rcases List.mem_append.1 hb with hb | hb
      · exact hne b (List.mem_append_left _ hb)
      · rcases List.mem_cons.1 hb with rfl | hb
        · exact h
        · exact hne b (by simp [hb])

theorem flatten_pos (h : 0 < buckets.length)
    (hne : ∀ b ∈ buckets, b ≠ []) : 0 < buckets.flatten.length := by
  obtain ⟨b, hb⟩ := List.exists_mem_of_length_pos h
  obtain ⟨x, hx⟩ := List.exists_mem_of_ne_nil b (hne b hb)
  exact List.length_pos_of_mem (List.mem_flatten.2 ⟨b, hb, hx⟩)

/-- What is in the buffer when the loop has come to index `i`. -/
structure Filled (entries : List N) (i : ℕ) (pool buf : List N) : Prop where
  length : i ≤ buf.length
  perm : (buf.take i ++ pool).Perm entries

theorem Filled.set {entries pool pool' buf : List N} {i : ℕ} {x : N} (h : Filled entries i pool buf)
    (hi : i < buf.length) (hpool : (x :: pool').Perm pool) :
    Filled entries (i + 1) pool' (buf.set i x) where
  length := by rwa [List.length_set]
  perm := by
    have htake : (buf.set i x).take (i + 1) = buf.take i ++ [x] := by
      rw [List.take_add_one, List.take_set_of_le le_rfl]
      simp [hi]
    rw [htake, List.append_assoc, List.singleton_append]
    exact (hpool.append_left _).trans h.perm

/-- **The loop does not panic.**  It ends with the buffer or with the buckets: the nodes in the
    buffer are entries, and the index is that of the last one, or the end of the buffer. -/
theorem fill_spec {entries : List N} {slots i j : ℕ} {buf : List N}
    (hslots : i + slots = buf.length) (hj : j < buckets.length) (hne : ∀ b ∈ buckets, b ≠ [])
    (h : Filled entries i buckets.flatten buf) :
    ∃ e buf' pool, fill slots i j buckets buf = .ok (e, buf') ∧ buf'.length = buf.length ∧
      Filled entries (min buf.length entries.length) pool buf' ∧
      e = if entries.length ≤ buf.length then entries.length - 1 else buf.length := by
  have htotal := h.perm.length_eq
  have hpos := flatten_pos (Nat.zero_lt_of_lt hj) hne
  rw [List.length_append, List.length_take_of_le h.length] at htotal
  induction slots generalizing i j buckets buf with
  | zero =>
    refine ⟨i, buf, buckets.flatten, rfl, rfl, ?_, ?_⟩
    · rwa [min_eq_left (by omega), ← hslots]
    · rw [if_neg (by omega)]
      omega
  | succ slots ih =>
    obtain ⟨x, rest, hget, hperm, hne'⟩ := dropHead_spec hj hne
    have hi : i < buf.length := by omega
    have hset := h.set hi hperm
    have hlen := hperm.length_eq
    rw [List.length_cons] at hlen
    simp only [fill, hget, if_pos hi]
    by_cases hzero : (dropHead buckets j rest).length = 0
    · -- the last bucket is empty
      have hnil : (dropHead buckets j rest).flatten = [] := by
        rw [List.length_eq_zero_iff.1 hzero, List.flatten_nil]
      rw [hnil, List.length_nil] at hlen
      refine ⟨i, buf.set i x, (dropHead buckets j rest).flatten, if_pos hzero, List.length_set,
        ?_, ?_⟩
      · rw [show min buf.length entries.length = i + 1 by omega]
        exact hset
      · rw [if_pos (by omega)]
        omega
    · have hpos' : 0 < (dropHead buckets j rest).length := Nat.pos_of_ne_zero hzero
      have hnode := flatten_pos hpos' hne'
      obtain ⟨e, buf', pool, hfill, hlength, hfilled, he⟩ :=
        ih (by rw [List.length_set]; omega) (Nat.mod_lt (j + 1) hpos') hne' hset (by omega) hnode
      rw [List.length_set] at hlength hfilled he
      exact ⟨e, buf', pool, by rw [if_neg hzero]; exact hfill, hlength, hfilled, he⟩

/-! ## The number of nodes -/

/-- The first `n` nodes of the buffer are different entries of the table, and `n` is as large as it
    can be. -/
def Table.Sampled (tab : Table N) (n : ℕ) (buf : List N) : Prop :=
  n = min buf.length tab.entries.length ∧ (buf.take n).Nodup ∧ ∀ x ∈ buf.take n, x ∈ tab.entries

theorem Filled.sampled {tab : Table N} {pool buf : List N}
    (h : Filled tab.entries (min buf.length tab.entries.length) pool buf) :
    tab.Sampled (min buf.length tab.entries.length) buf := by
  refine ⟨rfl, ?_, fun x hx => h.perm.subset (List.mem_append_left _ hx)⟩
  exact (h.perm.nodup_iff.2 tab.distinct).of_append_left

theorem flatten_filter (buckets : List (List N)) :
    (buckets.filter fun b => 0 < b.length).flatten = buckets.flatten := by
  induction buckets with
  | nil => rfl
  | cons b buckets ih => cases b <;> simp [ih]

theorem ne_nil_of_mem_filter {b : List N}
    (hb : b ∈ buckets.filter fun b => 0 < b.length) : b ≠ [] := by
  rintro rfl
  simp at hb

/-- What `ReadRandomNodes` does once the table has entries. -/
theorem Table.readRandomNodes_done (tab : Table N) (intn : ℕ → ℕ) (buf : List N)
    (hdone : tab.initDone = true) (hentries : tab.entries ≠ []) :
    ∃ buf', buf'.length = buf.length ∧ tab.Sampled (min buf'.length tab.entries.length) buf' ∧
      tab.readRandomNodes intn buf = .ok
        (if tab.entries.length ≤ buf.length then tab.entries.length else buf.length + 1, buf') := by
  set buckets := tab.buckets.filter fun b => 0 < b.length with hbuckets
  have hflat : buckets.flatten = tab.entries := flatten_filter tab.buckets
  have hne : buckets.length ≠ 0 := by
    intro h
    rw [List.length_eq_zero_iff.1 h] at hflat
    exact hentries hflat.symm
  have hlast : buckets.length - 1 < buckets.length := by omega
  obtain ⟨b, hshuffle, hperm⟩ := shuffle_perm intn hlast
  have hstart : Filled tab.entries 0 b.flatten buf := by
    refine ⟨Nat.zero_le _, ?_⟩
    rw [List.take_zero, List.nil_append, ← hflat]
    exact hperm.flatten
  obtain ⟨e, buf', pool, hfill, hlength, hfilled, he⟩ := fill_spec (j := 0)
    (Nat.zero_add buf.length) (by rw [hperm.length_eq]; omega)
    (fun c hc => ne_nil_of_mem_filter (hperm.subset hc)) hstart
  have hpos := List.length_pos_of_ne_nil hentries
  rw [← hlength] at hfilled
  refine ⟨buf', hlength, hfilled.sampled, ?_⟩
  simp only [Table.readRandomNodes, hdone, if_true, ← hbuckets, if_neg hne, hshuffle]
  change (fill buf.length 0 0 b buf >>= fun r => _) = _
  rw [hfill]
  change Except.ok (e + 1, buf') = _
  rw [he]
  split_ifs
  · rw [Nat.sub_add_cancel hpos]
  · rfl

/-- **`ReadRandomNodes` does not panic**, and the number it returns is that of the different nodes
    of the table in the buffer if and only if the buffer has room for all the entries (before the
    table is there: if there is nothing to return). -/
theorem readRandomNodes_exact (tab : Table N) (intn : ℕ → ℕ) (buf : List N) :
    ∃ n buf', tab.readRandomNodes intn buf = .ok (n, buf') ∧ buf'.length = buf.length ∧
      (tab.Sampled n buf' ↔
        if tab.initDone then tab.entries.length ≤ buf.length
        else min buf.length tab.entries.length = 0) := by
  have hnone : ∀ b : List N, tab.Sampled 0 b ↔ min b.length tab.entries.length = 0 := by
    intro b
    simp [Table.Sampled, eq_comm]
  cases hdone : tab.initDone with
  | false => exact ⟨0, buf, by simp [Table.readRandomNodes, hdone], rfl, by simpa using hnone buf⟩
  | true =>
    by_cases hentries : tab.entries = []
    · refine ⟨0, buf, ?_, rfl, by simp [hnone, hentries]⟩
      have hflat := (flatten_filter tab.buckets).trans hentries
      have hnil : (tab.buckets.filter fun b => 0 < b.length) = [] := by
        by_contra hne
        have hpos := flatten_pos (List.length_pos_of_ne_nil hne) fun c => ne_nil_of_mem_filter
        simp [hflat] at hpos
      simp [Table.readRandomNodes, hdone, hnil]
    · obtain ⟨buf', hlength, hsampled, hread⟩ :=
        tab.readRandomNodes_done intn buf hdone hentries
      refine ⟨_, buf', hread, hlength, ?_⟩
      rw [if_pos rfl]
      split_ifs with h
      · rw [hlength, min_eq_right h] at hsampled
        simpa [h] using hsampled
      · refine iff_of_false (fun hs => ?_) h
        have := hs.1
        omega

/-- Two nodes, each in a bucket of its own. -/
def pair : Table ℕ := ⟨[[1], [2]], true, by decide⟩

/-- There are two nodes, and the buffer has one place: the number is `2`. -/
theorem readRandomNodes_past : ∃ buf, pair.readRandomNodes (fun _ => 0) [0] = .ok (2, buf) ∧
    ¬ pair.Sampled 2 buf := by
  refine ⟨[2], rfl, ?_⟩
  rintro ⟨hn, -⟩
  exact absurd hn (by decide)

end GoEthereum.Discover.Sampling

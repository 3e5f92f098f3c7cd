/-
  Intervals of a stream (swarm/network/stream/intervals/intervals.go).

  The ranges that have been synced.  `add` scans them for the first and the last one that the
  new range touches.  The test looks at the ends of a range only: a new range inside an old one
  is put next to it (`touch`).  If this does not happen, `add` is insertion into a list of
  ranges (`Intervals.WF.add_iff`).  `UnmarshalBinary` keeps the old ranges of its receiver if
  there are none in the data (`Intervals.unmarshal_marshal`).
-/
import GoEthereum.Lib.Ranges
import Mathlib.Tactic

namespace GoEthereum.Swarm

open Ranges

/-! ## Model -/

/-- `n + 1` in 64 bits. -/
def inc (n : ℕ) : ℕ := (n + 1) % 2 ^ 64

/-- `n - 1` in 64 bits. -/
def dec (n : ℕ) : ℕ := (n + (2 ^ 64 - 1)) % 2 ^ 64

structure Intervals where
  start : ℕ
  ranges : List (ℕ × ℕ)
deriving DecidableEq

def newIntervals (start : ℕ) : Intervals := ⟨start, []⟩

/-- The variables of the loop in `add`; an index is `none` for `-1`. -/
structure Scan where
  start : ℕ
  stop : ℕ
  minStartJ : Option ℕ
  maxEndJ : Option ℕ

/-- The first part of a round. -/
def Scan.first (s : Scan) (j : ℕ) (r : ℕ × ℕ) : Scan :=
  if s.minStartJ = none ∧ (s.start ≤ r.1 ∧ inc s.stop ≥ r.1 ∨
      s.start ≤ inc r.2 ∧ inc s.stop ≥ r.2) then
    { s with start := if r.1 < s.start then r.1 else s.start, minStartJ := some j }
  else s

/-- The second part of a round. -/
def Scan.last (s : Scan) (j : ℕ) (r : ℕ × ℕ) : Scan :=
  if s.start ≤ r.2 ∧ inc s.stop ≥ r.2 ∨ s.start ≤ r.1 ∧ inc s.stop ≥ r.1 then
    { s with stop := if r.2 > s.stop then r.2 else s.stop, maxEndJ := some j }
  else s

/-- The loop in `add`, from index `j` on: the index at which it ends and its variables. -/
def scan : ℕ → List (ℕ × ℕ) → Scan → ℕ × Scan
  | j, [], s => (j, s)
  | j, r :: rest, s =>
    let s := (s.first j r).last j r
    if inc s.stop ≤ r.1 then (j, s) else scan (j + 1) rest s

/-- What `add` does after the loop. -/
def update (ranges : List (ℕ × ℕ)) (j : ℕ) (s : Scan) : List (ℕ × ℕ) :=
  match s.minStartJ, s.maxEndJ with
  | none, none => ranges.take j ++ (s.start, s.stop) :: ranges.drop j
  | some k, none => ranges.modify k fun r => (s.start, r.2)
  | none, some m => ranges.modify m fun r => (r.1, s.stop)
  | some k, some m =>
    let ranges := (ranges.modify k fun r => (s.start, r.2)).modify m fun r => (r.1, s.stop)
    if k ≠ m then
      let ranges := ranges.modify m fun r => (s.start, r.2)
      ranges.take k ++ ranges.drop m
    else ranges

def Intervals.add (i : Intervals) (start stop : ℕ) : Intervals :=
  let start := if start < i.start then i.start else start
  if stop < i.start then i
  else
    let (j, s) := scan 0 i.ranges ⟨start, stop, none, none⟩
    { i with ranges := update i.ranges j s }

def Intervals.merge (i m : Intervals) : Intervals := m.ranges.foldl (fun i r => i.add r.1 r.2) i

def Intervals.next (i : Intervals) : ℕ × ℕ :=
  match i.ranges with
  | [] => (i.start, 0)
  | r :: rest =>
    if r.1 ≠ i.start then (i.start, dec r.1)
    else
      match rest with
      | [] => (inc r.2, 0)
      | s :: _ => (inc r.2, dec s.1)

/-- A call on a value; a value that is merged with itself waits for its own lock. -/
inductive Intervals.Op where
  | add (start stop : ℕ)
  | merge (m : Intervals)
  | mergeSelf
deriving DecidableEq

/-- `Add` and `Merge`; `none` is a call that does not return. -/
def Intervals.Op.apply (i : Intervals) : Op → Option Intervals
  | .add start stop => some (i.add start stop)
  | .merge m => some (i.merge m)
  | .mergeSelf => none

/-! ### Texts -/

/-- The digits of base 36. -/
def digit (d : ℕ) : Char := "0123456789abcdefghijklmnopqrstuvwxyz".toList.getD d '0'

/-- `strconv.FormatUint` in base 36. -/
def formatUint (n : ℕ) : List Char :=
  if n = 0 then ['0'] else (Nat.digits 36 n).reverse.map digit

/-- The value of a digit; letters may be capitals. -/
def digitVal (c : Char) : Option ℕ :=
  if '0' ≤ c ∧ c ≤ '9' then some (c.toNat - '0'.toNat)
  else if 'a' ≤ c ∧ c ≤ 'z' then some (c.toNat - 'a'.toNat + 10)
  else if 'A' ≤ c ∧ c ≤ 'Z' then some (c.toNat - 'A'.toNat + 10)
  else none

/-- The loop of `strconv.ParseUint` in base 36 and 64 bits; an error comes with a value. -/
def parseLoop : ℕ → List Char → Except ℕ ℕ
  | n, [] => .ok n
  | n, c :: cs =>
    match digitVal c with
    | none => .error 0
    | some d => if n * 36 + d < 2 ^ 64 then parseLoop (n * 36 + d) cs else .error (2 ^ 64 - 1)

/-- `strconv.ParseUint` -/
def parseUint (s : List Char) : Except ℕ ℕ := if s = [] then .error 0 else parseLoop 0 s

/-- Why `UnmarshalBinary` fails. -/
inductive Malformed where
  | start
  /-- `"range %d has less then 2 elements"` -/
  | short (j : ℕ)
  /-- `"parsing the first element in range %d"` -/
  | first (j : ℕ)
  /-- `"parsing the second element in range %d"` -/
  | second (j : ℕ)

/-- A range in `MarshalBinary`. -/
def marshalRange (r : ℕ × ℕ) : List Char := formatUint r.1 ++ ',' :: formatUint r.2

def Intervals.marshalBinary (i : Intervals) : List Char :=
  [';'].intercalate (formatUint i.start :: i.ranges.map marshalRange)

/-- A range in `UnmarshalBinary`; `bytes.SplitN` splits at the first comma. -/
def unmarshalRange (j : ℕ) (d : List Char) : Except Malformed (ℕ × ℕ) :=
  match d.dropWhile (· ≠ ',') with
  | [] => .error (.short j)
  | _ :: second =>
    match parseUint (d.takeWhile (· ≠ ',')) with
    | .error _ => .error (.first j)
    | .ok start =>
      match parseUint second with
      | .error _ => .error (.second j)
      | .ok stop => .ok (start, stop)

/-- The loop in `UnmarshalBinary`, from index `j` on: the error, and the value after it. -/
def Intervals.unmarshalRanges (i : Intervals) : ℕ → List (List Char) → Option Malformed × Intervals
  | _, [] => (none, i)
  | j, d :: ds =>
    match unmarshalRange j d with
    | .error e => (some e, i)
    | .ok r => { i with ranges := i.ranges ++ [r] : Intervals }.unmarshalRanges (j + 1) ds

/-- `UnmarshalBinary`; the ranges of the receiver are dropped only if there are ranges in the
    data. -/
def Intervals.unmarshalBinary (i : Intervals) (data : List Char) : Option Malformed × Intervals :=
  match data.splitOn ';' with
  | [] => (none, i)
  | d :: ds =>
    match parseUint d with
    | .error start => (some .start, { i with start })
    | .ok start =>
      if ds = [] then (none, { i with start })
      else { start, ranges := [] : Intervals }.unmarshalRanges 1 ds

/-! ## The loop -/

theorem inc_eq {n : ℕ} (h : n < 2 ^ 64 - 1) : inc n = n + 1 := Nat.mod_eq_of_lt (by omega)

theorem dec_eq {n : ℕ} (hpos : 0 < n) (h : n < 2 ^ 64) : dec n = n - 1 := by
  rw [dec, show n + (2 ^ 64 - 1) = n - 1 + 2 ^ 64 by omega, Nat.add_mod_right,
    Nat.mod_eq_of_lt (by omega)]

/-- A range that `add` accepts: it has elements, and its last number has a successor. -/
def Proper (r : ℕ × ℕ) : Prop := r.1 ≤ r.2 ∧ r.2 < 2 ^ 64 - 1

/-- The list after `add`, as the loop computes it. -/
def touch (a b : ℕ) : List (ℕ × ℕ) → List (ℕ × ℕ)
  | [] => [(a, b)]
  | r :: l =>
    if r.2 + 1 < a ∨ r.1 < a ∧ b + 1 < r.2 then r :: touch a b l
    else if b + 1 < r.1 then (a, b) :: r :: l
    else insertRange (min a r.1) (max b r.2) l

section Loop

variable {a b j k m : ℕ} {r : ℕ × ℕ}

theorem round_miss (hr : Proper r) (hab : Proper (a, b))
    (h : r.2 + 1 < a ∨ r.1 < a ∧ b + 1 < r.2 ∨ b + 1 < r.1) :
    ((⟨a, b, none, none⟩ : Scan).first j r).last j r = ⟨a, b, none, none⟩ := by
  obtain ⟨hr, hr'⟩ := hr
  obtain ⟨hab, hb⟩ := hab
  simp only at hab hb
  rw [Scan.first, if_neg, Scan.last, if_neg]
  · simp only [inc_eq hb]
    omega
  · simp only [inc_eq hb, inc_eq hr', true_and]
    omega

theorem round_hit (hr : Proper r) (hab : Proper (a, b)) (h₁ : ¬ r.2 + 1 < a)
    (h₂ : ¬ (r.1 < a ∧ b + 1 < r.2)) (h₃ : ¬ b + 1 < r.1) :
    ((⟨a, b, none, none⟩ : Scan).first j r).last j r =
      ⟨min a r.1, max b r.2, some j, some j⟩ := by
  obtain ⟨hr, hr'⟩ := hr
  obtain ⟨hab, hb⟩ := hab
  simp only at hab hb
  have hstart : (if r.1 < a then r.1 else a) = min a r.1 := by
    split_ifs <;> omega
  have hstop : (if r.2 > b then r.2 else b) = max b r.2 := by
    split_ifs <;> omega
  rw [Scan.first, if_pos, Scan.last, if_pos]
  · simp only [hstart, hstop]
  · simp only [inc_eq hb, hstart]
    omega
  · simp only [inc_eq hb, inc_eq hr', true_and]
    omega

theorem round_next (hr : Proper r) (hab : Proper (a, b)) (ha : a ≤ r.1) :
    ((⟨a, b, some k, some m⟩ : Scan).first j r).last j r =
      if b + 1 < r.1 then ⟨a, b, some k, some m⟩ else ⟨a, max b r.2, some k, some j⟩ := by
  obtain ⟨hr, hr'⟩ := hr
  obtain ⟨hab, hb⟩ := hab
  simp only at hab hb
  have hstop : (if r.2 > b then r.2 else b) = max b r.2 := by
    split_ifs <;> omega
  rw [Scan.first, if_neg (by simp), Scan.last]
  simp only [inc_eq hb, hstop]
  split_ifs <;> first | rfl | omega

theorem modify_append (pre rest : List (ℕ × ℕ)) (f : ℕ × ℕ → ℕ × ℕ) {n : ℕ}
    (hn : n = pre.length) : (pre ++ r :: rest).modify n f = pre ++ f r :: rest := by
  subst hn
  induction pre with
  | nil => rfl
  | cons x pre ih => simp [ih]

theorem update_joined (pre mids rest : List (ℕ × ℕ)) (x : ℕ × ℕ) :
    update (pre ++ (mids ++ x :: rest)) j
      ⟨a, b, some pre.length, some (pre.length + mids.length)⟩ = pre ++ (a, b) :: rest := by
  rw [update]
  cases mids with
  | nil => simp only [List.nil_append, List.length_nil, Nat.add_zero, ne_eq, not_true_eq_false,
      if_false, modify_append]
  | cons y mids =>
    have hne : pre.length ≠ pre.length + (y :: mids).length := by simp
    have hlen : pre.length + (y :: mids).length = (pre ++ (a, y.2) :: mids).length := by simp
    have hfirst : (pre ++ (y :: mids ++ x :: rest)).modify pre.length (fun r => (a, r.2)) =
        (pre ++ (a, y.2) :: mids) ++ x :: rest := by
      rw [List.cons_append, modify_append pre _ _ rfl]
      simp
    simp only [if_pos hne, hfirst, modify_append _ _ _ hlen]
    rw [List.drop_left' hlen.symm, List.append_assoc, List.take_left]

/-- The loop behind the first range that is touched. -/
theorem scan_joined (pre mids rest : List (ℕ × ℕ)) (x : ℕ × ℕ) (hab : Proper (a, b))
    (hrest : ∀ r ∈ rest, Proper r) (ha : ∀ r ∈ rest, a ≤ r.1) :
    update (pre ++ (mids ++ x :: rest))
      (scan (pre.length + mids.length + 1) rest
        ⟨a, b, some pre.length, some (pre.length + mids.length)⟩).1
      (scan (pre.length + mids.length + 1) rest
        ⟨a, b, some pre.length, some (pre.length + mids.length)⟩).2 =
      pre ++ insertRange a b rest := by
  induction rest generalizing mids x b with
  | nil =>
    rw [scan, insertRange]
    exact update_joined pre mids [] x
  | cons r rest ih =>
    obtain ⟨hr, hrest⟩ := List.forall_mem_cons.1 hrest
    obtain ⟨har, ha⟩ := List.forall_mem_cons.1 ha
    obtain ⟨hr₁, hr₂⟩ := hr
    obtain ⟨hab₁, hab₂⟩ := hab
    have hbefore : ¬ r.2 + 1 < a := by omega
    rw [scan, round_next ⟨hr₁, hr₂⟩ ⟨hab₁, hab₂⟩ har, insertRange, if_neg hbefore]
    by_cases hbehind : b + 1 < r.1
    · have hstop : inc b ≤ r.1 := by
        rw [inc_eq hab₂]
        exact hbehind.le
      simp only [if_pos hbehind, if_pos hstop]
      exact update_joined pre mids (r :: rest) x
    · have hmax : max b r.2 < 2 ^ 64 - 1 := max_lt hab₂ hr₂
      have hgo : ¬ inc (max b r.2) ≤ r.1 := by
        rw [inc_eq hmax]
        omega
      simp only [if_neg hbehind, if_neg hgo, min_eq_left har]
      have hproper : Proper (a, max b r.2) := ⟨le_max_of_le_left hab₁, hmax⟩
      have := ih (mids ++ [x]) r hproper hrest ha
      simpa [Nat.add_assoc] using this

/-- **The loop of `add`**, behind ranges that are not touched. -/
theorem scan_fresh (pre rest : List (ℕ × ℕ)) (hab : Proper (a, b)) (hrest : ∀ r ∈ rest, Proper r)
    (hl : Ordered rest) :
    update (pre ++ rest) (scan pre.length rest ⟨a, b, none, none⟩).1
      (scan pre.length rest ⟨a, b, none, none⟩).2 = pre ++ touch a b rest := by
  induction rest generalizing pre with
  | nil => simp [scan, update, touch]
  | cons r rest ih =>
    obtain ⟨hr, hrest⟩ := List.forall_mem_cons.1 hrest
    obtain ⟨-, hbehind, hl⟩ := ordered_cons.1 hl
    have hinc : inc b = b + 1 := inc_eq hab.2
    have hle : a ≤ b := hab.1
    have hr₁ := hr.1
    rw [scan, touch]
    by_cases h₁ : r.2 + 1 < a ∨ r.1 < a ∧ b + 1 < r.2
    · have hgo : ¬ inc b ≤ r.1 := by omega
      rw [round_miss hr hab (by tauto), if_pos h₁]
      simp only [if_neg hgo]
      simpa using ih (pre ++ [r]) hrest hl
    · rw [if_neg h₁]
      rw [not_or] at h₁
      by_cases h₂ : b + 1 < r.1
      · have hstop : inc b ≤ r.1 := by omega
        rw [round_miss hr hab (by tauto), if_pos h₂]
        simp [hstop, update]
      · have hmax : max b r.2 < 2 ^ 64 - 1 := max_lt hab.2 hr.2
        have hgo : ¬ inc (max b r.2) ≤ r.1 := by
          rw [inc_eq hmax]
          omega
        rw [round_hit hr hab h₁.1 h₁.2 h₂, if_neg h₂]
        simp only [if_neg hgo]
        have hproper : Proper (min a r.1, max b r.2) := ⟨by simp; omega, hmax⟩
        refine scan_joined pre [] rest r hproper hrest fun s hs => ?_
        have := hbehind s hs
        omega

theorem touch_eq {l : List (ℕ × ℕ)} (h : ∀ r ∈ l, ¬ (r.1 < a ∧ b + 1 < r.2)) :
    touch a b l = insertRange a b l := by
  induction l with
  | nil => rfl
  | cons r l ih =>
    obtain ⟨hr, hl⟩ := List.forall_mem_cons.1 h
    simp only [touch, insertRange, hr, or_false, ih hl]

theorem not_ordered_touch {l : List (ℕ × ℕ)} (hab : a ≤ b) (hl : Ordered l)
    (h : ∃ r ∈ l, r.1 < a ∧ b + 1 < r.2) : ¬ Ordered (touch a b l) := by
  induction l with
  | nil => simp at h
  | cons r l ih =>
    obtain ⟨hr, hbehind, hl⟩ := ordered_cons.1 hl
    obtain ⟨s, hs, hsa, hbs⟩ := h
    rcases List.mem_cons.1 hs with rfl | hs
    · have hmem : (a, b) ∈ touch a b l := by
        cases l with
        | nil => simp [touch]
        | cons t l =>
          have ht := hbehind t (by simp)
          have ht' := hl.nonempty t (by simp)
          rw [touch, if_neg (by omega), if_pos (by omega)]
          simp
      rw [touch, if_pos (.inr ⟨hsa, hbs⟩), ordered_cons]
      rintro ⟨-, hapart, -⟩
      have := hapart _ hmem
      simp only at this
      omega
    · have := hbehind s hs
      rw [touch, if_pos (.inl (by omega)), ordered_cons]
      rintro ⟨-, -, hrest⟩
      exact ih hl ⟨s, hs, hsa, hbs⟩ hrest

end Loop

/-! ## Adding ranges -/

/-- The ranges are in order, behind `start`, and have successors. -/
structure Intervals.WF (i : Intervals) : Prop where
  ordered : Ordered i.ranges
  start_le : ∀ r ∈ i.ranges, i.start ≤ r.1
  bound : ∀ r ∈ i.ranges, r.2 < 2 ^ 64 - 1

/-- The new range begins behind the start of an old one and ends in front of its last two
    numbers. -/
def Intervals.Inside (i : Intervals) (a b : ℕ) : Prop :=
  ∃ r ∈ i.ranges, r.1 < max a i.start ∧ b + 1 < r.2

section Adding

variable {i : Intervals} {a b : ℕ}

@[simp]
theorem Intervals.add_start : (i.add a b).start = i.start := by
  simp only [Intervals.add]
  split_ifs <;> rfl

theorem Intervals.WF.proper (h : i.WF) {r : ℕ × ℕ} (hr : r ∈ i.ranges) : Proper r :=
  ⟨h.ordered.nonempty r hr, h.bound r hr⟩

theorem Intervals.WF.add_ranges (h : i.WF) (hab : Proper (a, b)) (hstart : i.start ≤ b) :
    (i.add a b).ranges = touch (max a i.start) b i.ranges := by
  have hmax : (if a < i.start then i.start else a) = max a i.start := by
    split_ifs <;> omega
  have hproper : Proper (max a i.start, b) := ⟨max_le hab.1 hstart, hab.2⟩
  simp only [Intervals.add, hmax, if_neg (not_lt.2 hstart)]
  exact scan_fresh [] i.ranges hproper (fun r => h.proper) h.ordered

/-- **`add` adds the range if and only if it is not inside an old one.** -/
theorem Intervals.WF.add_iff (h : i.WF) (hab : Proper (a, b)) :
    ((i.add a b).WF ∧ ∀ n, Mem n (i.add a b).ranges ↔
      Mem n i.ranges ∨ i.start ≤ n ∧ a ≤ n ∧ n ≤ b) ↔ ¬ i.Inside a b := by
  by_cases hstart : i.start ≤ b
  · have hle : max a i.start ≤ b := max_le hab.1 hstart
    constructor
    · rintro ⟨hwf, -⟩ hinside
      have hordered := hwf.ordered
      rw [h.add_ranges hab hstart] at hordered
      exact not_ordered_touch hle h.ordered hinside hordered
    · intro hinside
      have hranges : (i.add a b).ranges = insertRange (max a i.start) b i.ranges := by
        rw [h.add_ranges hab hstart]
        exact touch_eq fun r hr hin => hinside ⟨r, hr, hin⟩
      refine ⟨⟨?_, ?_, ?_⟩, fun n => ?_⟩
      · exact hranges ▸ ordered_insertRange hle h.ordered
      · rw [hranges, add_start]
        exact forall_mem_insertRange (fun r s => le_min) (le_max_right _ _) h.start_le
      · rw [hranges]
        exact forall_mem_insertRange (fun r s => max_lt) hab.2 h.bound
      · rw [hranges, mem_insertRange hle h.ordered, max_le_iff]
        tauto
  · -- the range ends in front of `start`
    have hsame : i.add a b = i := by
      simp only [Intervals.add, if_pos (not_le.1 hstart)]
    rw [hsame]
    refine iff_of_true ⟨h, fun n => ?_⟩ ?_
    · have : ¬ (i.start ≤ n ∧ a ≤ n ∧ n ≤ b) := by omega
      simp [this]
    · rintro ⟨r, hr, hlt, -⟩
      have := h.start_le r hr
      have := hab.1
      simp only at this
      omega

/-- Ranges one after another. -/
def Intervals.adds (i : Intervals) (l : List (ℕ × ℕ)) : Intervals :=
  l.foldl (fun i r => i.add r.1 r.2) i

/-- No range is inside an old one when it is added. -/
def Intervals.Careful (i : Intervals) : List (ℕ × ℕ) → Prop
  | [] => True
  | r :: l => ¬ i.Inside r.1 r.2 ∧ (i.add r.1 r.2).Careful l

instance (i : Intervals) (a b : ℕ) : Decidable (i.Inside a b) :=
  inferInstanceAs (Decidable (∃ r ∈ i.ranges, r.1 < max a i.start ∧ b + 1 < r.2))

instance Intervals.decidableCareful : ∀ (i : Intervals) (l : List (ℕ × ℕ)), Decidable (i.Careful l)
  | _, [] => isTrue trivial
  | i, r :: l =>
    have := decidableCareful (i.add r.1 r.2) l
    inferInstanceAs (Decidable (¬ i.Inside r.1 r.2 ∧ (i.add r.1 r.2).Careful l))

/-- **Runs.**  After each of the ranges all is well if and only if none is inside an old one when it
    is added. -/
theorem Intervals.WF.adds_iff (h : i.WF) {l : List (ℕ × ℕ)} (hl : ∀ r ∈ l, Proper r) :
    (∀ p, p <+: l → (i.adds p).WF ∧
      ∀ n, Mem n (i.adds p).ranges ↔ Mem n i.ranges ∨ i.start ≤ n ∧ Mem n p) ↔ i.Careful l := by
  induction l generalizing i with
  | nil =>
    refine iff_of_true (fun p hp => ?_) trivial
    rw [List.prefix_nil.1 hp]
    exact ⟨h, fun n => by simp [Intervals.adds]⟩
  | cons r l ih =>
    obtain ⟨hr, hrest⟩ := List.forall_mem_cons.1 hl
    rw [Intervals.Careful, ← h.add_iff hr]
    have hempty : ∀ n, Mem n (i.adds []).ranges ↔ Mem n i.ranges ∨ i.start ≤ n ∧ Mem n [] := by
      simp [Intervals.adds]
    constructor
    · intro hall
      have hstep : (i.add r.1 r.2).WF ∧ ∀ n, Mem n (i.add r.1 r.2).ranges ↔
          Mem n i.ranges ∨ i.start ≤ n ∧ Mem n [r] :=
        hall [r] (List.cons_prefix_cons.2 ⟨rfl, List.nil_prefix⟩)
      simp only [mem_cons, mem_nil, or_false] at hstep
      refine ⟨hstep, (ih hstep.1 hrest).1 fun p hp => ?_⟩
      obtain ⟨hwf, hmem⟩ := hall (r :: p) (List.cons_prefix_cons.2 ⟨rfl, hp⟩)
      refine ⟨hwf, fun n => (hmem n).trans ?_⟩
      rw [hstep.2 n, mem_cons, add_start]
      tauto
    · rintro ⟨hstep, hcareful⟩ p hp
      cases p with
      | nil => exact ⟨h, hempty⟩
      | cons q p =>
        obtain ⟨rfl, hp'⟩ := List.cons_prefix_cons.1 hp
        obtain ⟨hwf, hmem⟩ := (ih hstep.1 hrest).2 hcareful p hp'
        refine ⟨hwf, fun n => (hmem n).trans ?_⟩
        rw [hstep.2 n, mem_cons, add_start]
        tauto

theorem wf_new (start : ℕ) : (newIntervals start).WF :=
  ⟨ordered_nil, by simp [newIntervals], by simp [newIntervals]⟩

end Adding

/-! ## The first gap -/

/-- `(s, e)` is the first maximal gap that is not below `start`, without an end if `e` is zero. -/
def Intervals.FirstGap (i : Intervals) (g : ℕ × ℕ) : Prop :=
  i.start ≤ g.1 ∧ (∀ n, i.start ≤ n → n < g.1 → Mem n i.ranges) ∧
    if g.2 = 0 then ∀ n, g.1 ≤ n → ¬ Mem n i.ranges
    else g.1 ≤ g.2 ∧ (∀ n, g.1 ≤ n → n ≤ g.2 → ¬ Mem n i.ranges) ∧ Mem (g.2 + 1) i.ranges

theorem not_mem_of_lt {l : List (ℕ × ℕ)} {k n : ℕ} (h : ∀ s ∈ l, k < s.1) (hn : n ≤ k) :
    ¬ Mem n l := by
  rintro ⟨s, hs, hle, -⟩
  have := h s hs
  omega

/-- **`Next` returns the first gap if and only if it is not the number zero alone**, whose end is
    read as no end. -/
theorem Intervals.WF.next_iff {i : Intervals} (h : i.WF) :
    i.FirstGap i.next ↔ ¬ (i.start = 0 ∧ ∃ r ∈ i.ranges.head?, r.1 = 1) := by
  obtain ⟨start, ranges⟩ := i
  cases ranges with
  | nil =>
    refine iff_of_true ?_ (by simp)
    simp only [Intervals.FirstGap, Intervals.next, mem_nil, if_true]
    exact ⟨le_rfl, fun n hle hlt => absurd hle (not_le.2 hlt), fun n _ => id⟩
  | cons r l =>
    obtain ⟨hr, hbehind, hl⟩ := ordered_cons.1 h.ordered
    have hstart : start ≤ r.1 := h.start_le r (by simp)
    have hbound : r.2 < 2 ^ 64 - 1 := h.bound r (by simp)
    simp only [List.head?_cons, Option.mem_some_iff, exists_eq_left']
    by_cases hr₁ : r.1 = start
    · -- the first range begins at `start`, and the gap behind it
      refine iff_of_true ?_ (by omega)
      have hcovered : ∀ n, start ≤ n → n < r.2 + 1 → Mem n (r :: l) := fun n hle hlt =>
        mem_cons.2 (.inl ⟨by omega, by omega⟩)
      have hfree : ∀ k n, (∀ s ∈ l, k < s.1) → r.2 + 1 ≤ n → n ≤ k → ¬ Mem n (r :: l) := by
        intro k n hk hle hn hmem
        rcases mem_cons.1 hmem with hmem | hmem
        · omega
        · exact not_mem_of_lt hk hn hmem
      simp only [Intervals.FirstGap, Intervals.next, hr₁, ne_eq, not_true_eq_false, if_false]
      cases l with
      | nil =>
        simp only [inc_eq hbound, if_true]
        exact ⟨by omega, hcovered, fun n hn => hfree n n (by simp) hn le_rfl⟩
      | cons s l =>
        have hs := hbehind s (by simp)
        have hsbound := h.bound s (by simp)
        obtain ⟨hs₂, hbehind', -⟩ := ordered_cons.1 hl
        simp only [inc_eq hbound, dec_eq (by omega : 0 < s.1) (by omega)]
        rw [if_neg (by omega)]
        refine ⟨by omega, hcovered, by omega, fun n hle hn => hfree (s.1 - 1) n ?_ hle hn, ?_⟩
        · intro t ht
          have := hl.nonempty s (by simp)
          rcases List.mem_cons.1 ht with rfl | ht
          · omega
          · have := hbehind' t ht
            omega
        · exact mem_cons.2 (.inr (mem_cons.2 (.inl (by omega))))
    · have hnext : Intervals.next ⟨start, r :: l⟩ = (start, r.1 - 1) := by
        simp only [Intervals.next, ne_eq, hr₁, not_false_eq_true, if_true,
          dec_eq (by omega : 0 < r.1) (by omega)]
      rw [hnext]
      simp only [Intervals.FirstGap]
      split_ifs with hzero
      · refine iff_of_false ?_ (by omega)
        rintro ⟨-, -, hnone⟩
        exact hnone r.1 hstart (mem_cons.2 (.inl ⟨le_rfl, hr⟩))
      · refine iff_of_true ⟨le_rfl, fun n hle hlt => absurd hle (not_le.2 hlt), by omega,
          fun n hle hn hmem => ?_, mem_cons.2 (.inl (by omega))⟩ (by omega)
        rcases mem_cons.1 hmem with hmem | hmem
        · omega
        · exact not_mem_of_lt hbehind (by omega) hmem

/-! ## Marshalling -/

theorem digit_facts : ∀ d < 36, digitVal (digit d) = some d ∧ digit d ≠ ';' ∧ digit d ≠ ',' := by
  decide

theorem foldl_digits (n : ℕ) :
    (Nat.digits 36 n).reverse.foldl (fun n d => n * 36 + d) 0 = n := by
  have h := Nat.ofDigits_digits 36 n
  rw [Nat.ofDigits_eq_foldr] at h
  rw [List.foldl_reverse]
  simpa [Nat.add_comm, Nat.mul_comm] using h

theorem parseLoop_digits {ds : List ℕ} (hds : ∀ d ∈ ds, d < 36) {n : ℕ}
    (hlt : ds.foldl (fun n d => n * 36 + d) n < 2 ^ 64) :
    parseLoop n (ds.map digit) = .ok (ds.foldl (fun n d => n * 36 + d) n) := by
  induction ds generalizing n with
  | nil => rfl
  | cons d ds ih =>
    obtain ⟨hd, hds⟩ := List.forall_mem_cons.1 hds
    have hmono : ∀ (ds : List ℕ) (n : ℕ), n ≤ ds.foldl (fun n d => n * 36 + d) n := by
      intro ds
      induction ds with
      | nil => exact fun n => le_rfl
      | cons e ds ih => exact fun n => le_trans (by omega) (ih (n * 36 + e))
    have hstep := (hmono ds (n * 36 + d)).trans_lt hlt
    rw [List.map_cons, parseLoop, (digit_facts d hd).1]
    exact (if_pos hstep).trans (ih hds hlt)

theorem parse_format {n : ℕ} (h : n < 2 ^ 64) : parseUint (formatUint n) = .ok n := by
  rw [formatUint]
  split_ifs with h0
  · subst h0
    rfl
  · have hne : (Nat.digits 36 n).reverse.map digit ≠ [] := by
      simpa [Nat.digits_ne_nil_iff_ne_zero] using h0
    rw [parseUint, if_neg hne, parseLoop_digits, foldl_digits]
    · intro d hd
      exact Nat.digits_lt_base (by norm_num) (List.mem_reverse.1 hd)
    · rwa [foldl_digits]

theorem no_separator (n : ℕ) : ';' ∉ formatUint n ∧ ',' ∉ formatUint n := by
  rw [formatUint]
  split_ifs
  · decide
  · have hne : ∀ d ∈ (Nat.digits 36 n).reverse, digit d ≠ ';' ∧ digit d ≠ ',' := fun d hd =>
      (digit_facts d (Nat.digits_lt_base (by norm_num) (List.mem_reverse.1 hd))).2
    constructor
    · intro hmem
      obtain ⟨d, hd, heq⟩ := List.mem_map.1 hmem
      exact (hne d hd).1 heq
    · intro hmem
      obtain ⟨d, hd, heq⟩ := List.mem_map.1 hmem
      exact (hne d hd).2 heq

theorem unmarshalRange_marshal (j : ℕ) {r : ℕ × ℕ} (h₁ : r.1 < 2 ^ 64) (h₂ : r.2 < 2 ^ 64) :
    unmarshalRange j (marshalRange r) = .ok r := by
  have hcomma : ∀ c ∈ formatUint r.1, (c ≠ ',') := by
    rintro c hc rfl
    exact (no_separator r.1).2 hc
  have hdrop : (marshalRange r).dropWhile (· ≠ ',') = ',' :: formatUint r.2 := by
    rw [marshalRange, List.dropWhile_append_of_pos (by simpa using hcomma)]
    simp
  have htake : (marshalRange r).takeWhile (· ≠ ',') = formatUint r.1 := by
    rw [marshalRange, List.takeWhile_append_of_pos (by simpa using hcomma)]
    simp
  simp only [unmarshalRange, hdrop, htake, parse_format h₁, parse_format h₂]

theorem unmarshalRanges_marshal (i : Intervals) (j : ℕ) {l : List (ℕ × ℕ)}
    (h : ∀ r ∈ l, r.1 < 2 ^ 64 ∧ r.2 < 2 ^ 64) :
    i.unmarshalRanges j (l.map marshalRange) = (none, { i with ranges := i.ranges ++ l }) := by
  induction l generalizing i j with
  | nil => simp [Intervals.unmarshalRanges]
  | cons r l ih =>
    obtain ⟨hr, hl⟩ := List.forall_mem_cons.1 h
    rw [List.map_cons, Intervals.unmarshalRanges, unmarshalRange_marshal j hr.1 hr.2]
    simp [ih _ (j + 1) hl]

/-- **Unmarshalling** what was marshalled: without ranges in the data the receiver `x` keeps its
    own. -/
theorem Intervals.unmarshal_marshal {i : Intervals} (x : Intervals) (hstart : i.start < 2 ^ 64)
    (h : ∀ r ∈ i.ranges, r.1 < 2 ^ 64 ∧ r.2 < 2 ^ 64) : x.unmarshalBinary i.marshalBinary =
      (none, if i.ranges = [] then ⟨i.start, x.ranges⟩ else i) := by
  have hsplit : i.marshalBinary.splitOn ';' = formatUint i.start :: i.ranges.map marshalRange := by
    refine List.splitOn_intercalate ';' (List.forall_mem_cons.2 ⟨(no_separator _).1, ?_⟩)
      (List.cons_ne_nil _ _)
    intro d hd
    obtain ⟨r, -, rfl⟩ := List.mem_map.1 hd
    simp [marshalRange, no_separator]
  simp only [unmarshalBinary, hsplit, parse_format hstart, List.map_eq_nil_iff,
    unmarshalRanges_marshal _ 1 h, List.nil_append]
  split_ifs <;> rfl

/-! ## Runs -/

namespace Intervals

/-- The ranges that a call adds, one after another. -/
def Op.ranges : Op → List (ℕ × ℕ)
  | .add start stop => [(start, stop)]
  | .merge m => m.ranges
  | .mergeSelf => []

/-- A call with proper ranges, or with ranges in order. -/
def Op.Proper : Op → Prop
  | .add start stop => Swarm.Proper (start, stop)
  | .merge m => m.WF
  | .mergeSelf => True

theorem Op.Proper.ranges {op : Op} (h : op.Proper) : ∀ r ∈ op.ranges, Swarm.Proper r := by
  cases op with
  | add start stop => exact List.forall_mem_singleton.2 h
  | merge m => exact fun r => WF.proper h
  | mergeSelf => simp [Op.ranges]

/-- A run returns if no value is merged with itself, with the ranges of the calls added. -/
theorem run_eq (i : Intervals) (ops : List Op) : ops.foldlM Op.apply i =
    if Op.mergeSelf ∈ ops then none else some (i.adds (ops.flatMap Op.ranges)) := by
  induction ops generalizing i with
  | nil => rfl
  | cons op ops ih =>
    rw [List.foldlM_cons]
    cases op with
    | mergeSelf => simp [Op.apply]
    | add start stop | merge m =>
      simp only [Op.apply, Option.bind_eq_bind, Option.bind_some, ih, List.mem_cons, reduceCtorEq,
        false_or, List.flatMap_cons, Op.ranges, merge, adds, List.foldl_append, List.foldl_cons,
        List.foldl_nil]

end Intervals

open Intervals in
/-- **Intervals are sets of numbers.**  A run of `Add` and `Merge` returns, and after each of the
    ranges that it adds the stored ranges are in order and have the numbers of the added ranges
    from `start` on, if and only if no value is merged with itself and no range is inside a stored
    one when it is added.  `Next` returns the first gap if and only if it is not the number zero
    alone.  Unmarshalling into `x` undoes marshalling if and only if there are ranges to marshal
    or none in `x`. -/
theorem sync_intervals (start : ℕ) (ops : List Op) (hops : ∀ op ∈ ops, op.Proper) :
    (ops.foldlM Op.apply (newIntervals start) =
        some ((newIntervals start).adds (ops.flatMap Op.ranges)) ∧
      (∀ p, p <+: ops.flatMap Op.ranges → ((newIntervals start).adds p).WF ∧
        ∀ n, Mem n ((newIntervals start).adds p).ranges ↔ start ≤ n ∧ Mem n p) ↔
    Op.mergeSelf ∉ ops ∧ (newIntervals start).Careful (ops.flatMap Op.ranges)) ∧
    ∀ i : Intervals, i.WF → i.start < 2 ^ 64 →
      (i.FirstGap i.next ↔ ¬ (i.start = 0 ∧ ∃ r ∈ i.ranges.head?, r.1 = 1)) ∧
      ∀ x : Intervals, x.unmarshalBinary i.marshalBinary = (none, i) ↔
        i.ranges ≠ [] ∨ x.ranges = [] := by
  refine ⟨?_, fun i hi hstart => ⟨hi.next_iff, fun x => ?_⟩⟩
  · have hproper : ∀ r ∈ ops.flatMap Op.ranges, Proper r := by
      intro r hr
      obtain ⟨op, hop, hr⟩ := List.mem_flatMap.1 hr
      exact (hops op hop).ranges r hr
    rw [← (wf_new start).adds_iff hproper, run_eq]
    simp [newIntervals]
  · have hbound : ∀ r ∈ i.ranges, r.1 < 2 ^ 64 ∧ r.2 < 2 ^ 64 := by
      intro r hr
      obtain ⟨hle, hlt⟩ := hi.proper hr
      exact ⟨by omega, by omega⟩
    rw [unmarshal_marshal x hstart hbound]
    obtain ⟨start, ranges⟩ := i
    by_cases hnil : ranges = []
    · simp [hnil]
    · simp [hnil]

/-- Two ranges that are apart, a third one that is merged, and their text. -/
theorem sync_intervals_text : ∃ i : Intervals,
    [.add 1 10, .add 20 30, .merge ⟨0, [(40, 50)]⟩].foldlM Intervals.Op.apply (newIntervals 0)
      = some i ∧ (∀ n, Mem n i.ranges ↔ Mem n [(1, 10), (20, 30), (40, 50)]) ∧
    i.marshalBinary = "0;1,a;k,u;14,1e".toList ∧
    (newIntervals 7).unmarshalBinary i.marshalBinary = (none, i) := by
  have hops : ∀ op ∈ ([.add 1 10, .add 20 30, .merge ⟨0, [(40, 50)]⟩] : List Intervals.Op),
      op.Proper := by
    simp only [List.forall_mem_cons]
    refine ⟨by simp [Intervals.Op.Proper, Proper], by simp [Intervals.Op.Proper, Proper], ?_, nofun⟩
    exact ⟨ordered_cons.2 ⟨by simp, by simp, ordered_nil⟩, by simp, by simp⟩
  obtain ⟨hruns, htext⟩ := sync_intervals 0 _ hops
  obtain ⟨hrun, hwell⟩ := hruns.2 ⟨by decide, by decide⟩
  obtain ⟨hwf, hmem⟩ := hwell _ (List.prefix_refl _)
  refine ⟨_, hrun, fun n => (hmem n).trans ?_, ?_,
    ((htext _ hwf (by decide)).2 _).2 (.inr rfl)⟩
  · simp [Intervals.Op.ranges]
  · decide

/-- A range inside an old one is stored next to it. -/
theorem add_inside : ((newIntervals 0).add 1 10).add 3 5 = ⟨0, [(1, 10), (3, 5)]⟩ ∧
    ¬ Ordered [(1, 10), (3, 5)] := by
  refine ⟨by decide, fun h => ?_⟩
  have := (ordered_cons.1 h).2.1 (3, 5) (by simp)
  omega

end GoEthereum.Swarm

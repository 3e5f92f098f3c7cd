/-
  Encryption of swarm chunks, `swarm/storage/encryption`.

  `transform` starts a goroutine for every segment of the data, fills the rest of the output
  with random bytes and waits for the goroutines.  A state is one moment of such a call, and
  `Step` one step of the caller or of any goroutine.  `Inevitably` says of a call what holds
  at its return, whatever the order of the steps.
-/
import Mathlib.Data.BitVec
import Mathlib.Tactic

namespace GoEthereum.Swarm

/-- The hash function is not in this package.  The key and its outputs are equally long. -/
structure Encryption where
  key : List UInt8
  padding : ℤ
  initCtr : BitVec 32
  hashFunc : List UInt8 → List UInt8

namespace Encryption

def keyLen (e : Encryption) : ℕ := e.key.length

/-- The counter of a segment. -/
def ctr (e : Encryption) (i : ℕ) : BitVec 32 := BitVec.ofNat 32 i + e.initCtr

/-- The bytes of a counter, the least significant one first. -/
def ctrBytes (c : BitVec 32) : List UInt8 :=
  (List.range 4).map fun k => UInt8.ofNat (c.toNat / 256 ^ k)

def segmentKey (e : Encryption) (i : ℕ) : List UInt8 :=
  e.hashFunc (e.hashFunc (e.key ++ ctrBytes (e.ctr i)))

/-! ## A call of transform -/

/-- A goroutine at byte `j` of the segment that starts at `i` and has `l` bytes. -/
structure Routine where
  i : ℕ
  l : ℕ
  j : ℕ

/-- Where the caller is: in the loop, before the padding, before the wait, or back. -/
inductive Pc where
  | loop (i : ℕ)
  | pad
  | wait
  | returned

/-- A call on `input`: the caller, the wait group, the goroutines that run, the output, and
    the counters of the segments, the last one first. -/
structure State where
  input : List UInt8
  pc : Pc
  counter : ℤ
  running : List Routine
  out : List UInt8
  used : List (BitVec 32)

/-- The goroutines write their segments byte by byte.  `rand.Read` fills its buffer. -/
inductive Step (e : Encryption) : State → State → Prop
  | spawn {s : State} {i : ℕ} : s.pc = .loop i → i < s.input.length →
      Step e s { s with
        pc := .loop (i + e.keyLen), used := e.ctr (i / e.keyLen) :: s.used
        running := ⟨i, min e.keyLen (s.input.length - i), 0⟩ :: s.running }
  | finish {s : State} {i : ℕ} : s.pc = .loop i → ¬i < s.input.length →
      Step e s { s with pc := .pad }
  | pad {s : State} (bs : List UInt8) : s.pc = .pad → s.input.length + bs.length = s.out.length →
      Step e s { s with pc := .wait, out := s.out.take s.input.length ++ bs }
  | wait {s : State} : s.pc = .wait → s.counter = 0 → Step e s { s with pc := .returned }
  | write {s : State} {l l' : List Routine} {r : Routine} {x k : UInt8} :
      s.running = l ++ r :: l' → r.j < r.l → s.input[r.i + r.j]? = some x →
      (e.segmentKey (r.i / e.keyLen))[r.j]? = some k → r.i + r.j < s.out.length →
      Step e s { s with
        out := s.out.set (r.i + r.j) (x ^^^ k), running := l ++ { r with j := r.j + 1 } :: l' }
  | done {s : State} {l l' : List Routine} {r : Routine} :
      s.running = l ++ r :: l' → ¬r.j < r.l → 0 < s.counter →
      Step e s { s with running := l ++ l', counter := s.counter - 1 }

/-- The call, which divides by the length of the key. -/
def transform (e : Encryption) (input out : List UInt8) : Option State :=
  if e.keyLen = 0 then none
  else some ⟨input, .loop 0, ((input.length : ℤ) - 1).tdiv e.keyLen + 1, [], out, []⟩

def encrypt (e : Encryption) (data : List UInt8) : Except String (Option State) :=
  if 0 < e.padding then
    if e.padding < data.length then
      .error ("Data length longer than padding, data length " ++ toString data.length ++
        " padding " ++ toString e.padding)
    else .ok (e.transform data (List.replicate e.padding.toNat 0))
  else .ok (e.transform data (List.replicate data.length 0))

def decrypt (e : Encryption) (data : List UInt8) : Except String (Option State) :=
  if 0 < e.padding ∧ (data.length : ℤ) ≠ e.padding then
    .error ("Data length different than padding, data length " ++ toString data.length ++
      " padding " ++ toString e.padding)
  else .ok (e.transform data (List.replicate data.length 0))

/-- The call returns in a state with `P`, whatever the order of the steps. -/
inductive Inevitably (e : Encryption) (P : State → Prop) : State → Prop
  | returned {s : State} : s.pc = .returned → P s → Inevitably e P s
  | step {s : State} : s.pc ≠ .returned → (∃ s', Step e s s') →
      (∀ s', Step e s s' → Inevitably e P s') → Inevitably e P s

/-- `Encrypt` or `Decrypt` returns, with an error or with the output of its last state. -/
def Returns (e : Encryption) (P : Except String State → Prop) : Except String (Option State) → Prop
  | .error msg => P (.error msg)
  | .ok none => False
  | .ok (some s) => e.Inevitably (fun s => P (.ok s)) s

/-- No counter is used twice, by fewer than `2 ^ 32` segments. -/
def Distinct (used : List (BitVec 32)) : Prop := used.length < 2 ^ 32 → used.Nodup

/-! ## What every step keeps -/

variable {e : Encryption} {s s' : State} {P : State → Prop} {n k : ℕ}

/-- The byte of the key stream at a position. -/
def stream (e : Encryption) (k : ℕ) : UInt8 := (e.segmentKey (k / e.keyLen)).getD (k % e.keyLen) 0

/-- The routine is yet to write the byte. -/
def Routine.Owes (r : Routine) (k : ℕ) : Prop := r.i + r.j ≤ k ∧ k < r.i + r.l

structure Inv (e : Encryption) (n : ℕ) (s : State) : Prop where
  length : s.out.length = n
  le : s.input.length ≤ n
  used : s.used = ((List.range s.used.length).map e.ctr).reverse
  last : s.used.length = 0 ∨ (s.used.length - 1) * e.keyLen < s.input.length
  loop : ∀ i, s.pc = .loop i → i = s.used.length * e.keyLen
  ended : (∀ i, s.pc ≠ .loop i) → s.input.length ≤ s.used.length * e.keyLen
  counter : s.counter + s.used.length =
    s.running.length + (((s.input.length : ℤ) - 1).tdiv e.keyLen + 1)
  routine : ∀ r ∈ s.running, r.i = r.i / e.keyLen * e.keyLen ∧ r.l ≤ e.keyLen ∧
    r.i + r.l ≤ s.input.length ∧ r.j ≤ r.l
  byte : ∀ k x, s.input[k]? = some x → (∃ r ∈ s.running, r.Owes k) ∨
    s.used.length * e.keyLen ≤ k ∨ s.out[k]? = some (x ^^^ e.stream k)
  empty : s.pc = .returned → s.running = []

theorem stream_eq {r : Routine} {x : UInt8} (hi : r.i = r.i / e.keyLen * e.keyLen)
    (hl : r.l ≤ e.keyLen) (hj : r.j < r.l) (hx : (e.segmentKey (r.i / e.keyLen))[r.j]? = some x) :
    e.stream (r.i + r.j) = x := by
  have hlt : r.j < e.keyLen := hj.trans_le hl
  have hdiv : (r.i + r.j) / e.keyLen = r.i / e.keyLen := by
    rw [hi, Nat.mul_comm, Nat.mul_add_div (by omega), Nat.div_eq_of_lt hlt, Nat.add_zero,
      Nat.mul_div_cancel_left _ (by omega)]
  have hmod : (r.i + r.j) % e.keyLen = r.j := by
    rw [hi, Nat.mul_comm, Nat.mul_add_mod, Nat.mod_eq_of_lt hlt]
  rw [stream, hdiv, hmod, List.getD_eq_getElem?_getD, hx]
  rfl

theorem total_eq {K len : ℕ} (hK : 0 < K) (hne : 0 < len ∨ K = 1) (hle : len ≤ n * K)
    (hlast : n = 0 ∨ (n - 1) * K < len) : ((len : ℤ) - 1).tdiv K + 1 = n := by
  rcases Nat.eq_zero_or_pos len with rfl | hpos
  · obtain rfl : K = 1 := hne.resolve_left (lt_irrefl 0)
    obtain rfl : n = 0 := by omega
    rfl
  · obtain ⟨m, rfl⟩ : ∃ m, n = m + 1 := Nat.exists_eq_succ_of_ne_zero fun h => by
      rw [h, Nat.zero_mul] at hle
      omega
    rw [Nat.succ_mul] at hle
    rw [Nat.succ_sub_one] at hlast
    have hdiv : (len - 1) / K = m := by
      refine Nat.div_eq_of_lt_le ?_ ?_
      · omega
      · rw [Nat.succ_mul]
        omega
    rw [show (len : ℤ) - 1 = ((len - 1 : ℕ) : ℤ) by omega, ← Int.ofNat_tdiv, hdiv]
    rfl

/-- The steps that are left. -/
def left : List Routine → ℕ
  | [] => 0
  | r :: rs => r.l - r.j + 1 + left rs

@[simp]
theorem left_append (l l' : List Routine) : left (l ++ l') = left l + left l' := by
  induction l with
  | nil => simp [left]
  | cons r l ih => simp only [List.cons_append, left, ih, Nat.add_assoc]

def measure (s : State) : ℕ :=
  left s.running + match s.pc with
    | .loop i => 3 * (s.input.length - i) + 3
    | .pad => 2
    | .wait => 1
    | .returned => 0

theorem Step.measure_lt (hK : 0 < e.keyLen) (h : Step e s s') : measure s' < measure s := by
  cases h with
  | spawn hpc hi =>
    simp only [measure, hpc, left]
    omega
  | finish hpc hi | pad bs hpc hlen | wait hpc h0 =>
    simp only [measure, hpc]
    omega
  | write hr hj hx hk hlt | done hr hj hc =>
    simp only [measure, hr, left_append, left]
    omega

theorem Inv.spawn {i : ℕ} (hK : 0 < e.keyLen) (hs : Inv e n s) (hpc : s.pc = .loop i)
    (hi : i < s.input.length) : Inv e n { s with
      pc := .loop (i + e.keyLen), used := e.ctr (i / e.keyLen) :: s.used
      running := ⟨i, min e.keyLen (s.input.length - i), 0⟩ :: s.running } := by
  have hu := hs.loop i hpc
  have hdiv : i / e.keyLen = s.used.length := by rw [hu, Nat.mul_div_cancel _ hK]
  refine ⟨hs.length, hs.le, ?_, .inr ?_, ?_, fun h => absurd rfl (h _), ?_, ?_, fun k x hx => ?_,
    fun h => Pc.noConfusion h⟩
  · change e.ctr (i / e.keyLen) :: s.used = ((List.range (s.used.length + 1)).map e.ctr).reverse
    rw [hdiv, List.range_succ, List.map_append, List.reverse_append, ← hs.used]
    rfl
  · exact hu ▸ hi
  · rintro _ ⟨⟩
    rw [hu, List.length_cons, Nat.succ_mul]
  · have := hs.counter
    simp only [List.length_cons]
    push_cast
    omega
  · intro r hr
    rcases List.mem_cons.1 hr with rfl | hr
    · simp only
      exact ⟨by rw [hdiv, ← hu], by omega, by omega, by omega⟩
    · exact hs.routine r hr
  · have hk := (List.getElem?_eq_some_iff.1 hx).1
    rcases hs.byte k x hx with ⟨r, hr, ho⟩ | hle | hout
    · exact .inl ⟨r, .tail _ hr, ho⟩
    · rw [← hu] at hle
      by_cases hlt : k < i + e.keyLen
      · refine .inl ⟨_, .head _, ?_⟩
        simp only [Routine.Owes]
        simp only at hk
        omega
      · refine .inr (.inl ?_)
        rw [List.length_cons, Nat.succ_mul, ← hu]
        omega
    · exact .inr (.inr hout)

theorem Inv.write {l l' : List Routine} {r : Routine} {x b : UInt8} (hs : Inv e n s)
    (hr : s.running = l ++ r :: l') (hj : r.j < r.l) (hx : s.input[r.i + r.j]? = some x)
    (hb : (e.segmentKey (r.i / e.keyLen))[r.j]? = some b) (hlt : r.i + r.j < s.out.length) :
    Inv e n { s with
      out := s.out.set (r.i + r.j) (x ^^^ b), running := l ++ { r with j := r.j + 1 } :: l' } := by
  have hmem : r ∈ s.running := hr ▸ List.mem_append_right _ (.head _)
  obtain ⟨h1, h2, h3, -⟩ := hs.routine r hmem
  refine ⟨?_, hs.le, hs.used, hs.last, hs.loop, hs.ended, ?_, fun r' hr' => ?_, fun k y hy => ?_,
    fun h => ?_⟩
  · exact List.length_set.trans hs.length
  · have := hs.counter
    rw [hr] at this
    simpa using this
  · rcases List.mem_append.1 hr' with hr' | hr'
    · exact hs.routine r' (hr ▸ List.mem_append_left _ hr')
    · rcases List.mem_cons.1 hr' with rfl | hr'
      · exact ⟨h1, h2, h3, hj⟩
      · exact hs.routine r' (hr ▸ List.mem_append_right _ (.tail _ hr'))
  · by_cases hk : r.i + r.j = k
    · subst hk
      rw [hx] at hy
      cases hy
      refine .inr (.inr ?_)
      change (s.out.set (r.i + r.j) (x ^^^ b))[r.i + r.j]? = _
      rw [List.getElem?_set_self hlt, stream_eq h1 h2 hj hb]
    · rcases hs.byte k y hy with ⟨r', hr', ho⟩ | hle | hout
      · rw [hr] at hr'
        rcases List.mem_append.1 hr' with hr' | hr'
        · exact .inl ⟨r', List.mem_append_left _ hr', ho⟩
        · rcases List.mem_cons.1 hr' with rfl | hr'
          · refine .inl ⟨_, List.mem_append_right _ (.head _), ?_⟩
            exact ⟨by have := ho.1; simp only; omega, ho.2⟩
          · exact .inl ⟨r', List.mem_append_right _ (.tail _ hr'), ho⟩
      · exact .inr (.inl hle)
      · refine .inr (.inr ?_)
        change (s.out.set (r.i + r.j) (x ^^^ b))[k]? = _
        rw [List.getElem?_set_ne hk, hout]
  · rw [hs.empty h] at hr
    exact absurd hr (by simp)

theorem Inv.done {l l' : List Routine} {r : Routine} (hs : Inv e n s)
    (hr : s.running = l ++ r :: l') (hj : ¬r.j < r.l) :
    Inv e n { s with running := l ++ l', counter := s.counter - 1 } := by
  have hsub : ∀ r', r' ∈ l ++ l' → r' ∈ s.running := fun r' h => by
    rw [hr, List.mem_append, List.mem_cons]
    exact (List.mem_append.1 h).imp_right .inr
  refine ⟨hs.length, hs.le, hs.used, hs.last, hs.loop, hs.ended, ?_,
    fun r' hr' => hs.routine r' (hsub r' hr'), fun k x hx => ?_, fun h => ?_⟩
  · have := hs.counter
    rw [hr] at this
    simp only [List.length_append, List.length_cons] at this ⊢
    push_cast at this ⊢
    omega
  · refine (hs.byte k x hx).imp_left ?_
    rintro ⟨r', hr', ho⟩
    refine ⟨r', ?_, ho⟩
    rw [hr, List.mem_append, List.mem_cons] at hr'
    rcases hr' with hr' | rfl | hr'
    · exact List.mem_append_left _ hr'
    · have := ho.1
      have := ho.2
      omega
    · exact List.mem_append_right _ hr'
  · rw [hs.empty h] at hr
    exact absurd hr (by simp)

theorem Inv.step (hK : 0 < e.keyLen) (hne : 0 < s.input.length ∨ e.keyLen = 1)
    (hs : Inv e n s) (h : Step e s s') : Inv e n s' := by
  cases h with
  | spawn hpc hi => exact hs.spawn hK hpc hi
  | finish hpc hi =>
    refine ⟨hs.length, hs.le, hs.used, hs.last, fun _ h => Pc.noConfusion h, fun _ => ?_,
      hs.counter, hs.routine, hs.byte, fun h => Pc.noConfusion h⟩
    exact hs.loop _ hpc ▸ not_lt.1 hi
  | pad bs hpc hlen =>
    have hle := hs.ended fun i h => by rw [hpc] at h; cases h
    refine ⟨?_, hs.le, hs.used, hs.last, fun _ h => Pc.noConfusion h, fun _ => hle, hs.counter,
      hs.routine, fun k x hx => ?_, fun h => Pc.noConfusion h⟩
    · change (s.out.take s.input.length ++ bs).length = n
      rw [List.length_append, List.length_take, ← hs.length, ← hlen]
      omega
    · refine (hs.byte k x hx).imp_right (Or.imp_right fun hout => ?_)
      have hk := (List.getElem?_eq_some_iff.1 hx).1
      change (s.out.take s.input.length ++ bs)[k]? = _
      rw [List.getElem?_append_left (by rw [List.length_take]; simp only at hk; omega),
        List.getElem?_take_of_lt hk, hout]
  | wait hpc h0 =>
    have hle := hs.ended fun i h => by rw [hpc] at h; cases h
    refine ⟨hs.length, hs.le, hs.used, hs.last, fun _ h => Pc.noConfusion h, fun _ => hle,
      hs.counter, hs.routine, hs.byte, fun _ => ?_⟩
    have hcounter := hs.counter
    rw [total_eq hK hne hle hs.last] at hcounter
    have hnone : s.running.length = 0 := by omega
    exact List.eq_nil_of_length_eq_zero hnone
  | write hr hj hx hk hlt => exact hs.write hr hj hx hk hlt
  | done hr hj hc => exact hs.done hr hj

theorem Inv.progress (hhash : ∀ m, (e.hashFunc m).length = e.keyLen) (hK : 0 < e.keyLen)
    (hne : 0 < s.input.length ∨ e.keyLen = 1) (hs : Inv e n s) (hpc : s.pc ≠ .returned) :
    ∃ s', Step e s s' := by
  rcases hpc' : s.pc with i | _ | _ | _
  · by_cases hi : i < s.input.length
    · exact ⟨_, .spawn hpc' hi⟩
    · exact ⟨_, .finish hpc' hi⟩
  · have := hs.le
    exact ⟨_, .pad (List.replicate (s.out.length - s.input.length) 0) hpc' (by
      rw [List.length_replicate, hs.length]
      omega)⟩
  · have hcounter := hs.counter
    rw [total_eq hK hne (hs.ended fun i h => by rw [hpc'] at h; cases h) hs.last] at hcounter
    rcases hrun : s.running with _ | ⟨r, l⟩
    · exact ⟨_, .wait hpc' (by rw [hrun] at hcounter; simpa using hcounter)⟩
    · obtain ⟨-, h2, h3, -⟩ := hs.routine r (hrun ▸ .head _)
      by_cases hj : r.j < r.l
      · have hx : r.i + r.j < s.input.length := by omega
        have hk : r.j < (e.segmentKey (r.i / e.keyLen)).length := by
          rw [segmentKey, hhash]
          omega
        exact ⟨_, .write (l := []) hrun hj (List.getElem?_eq_getElem hx)
          (List.getElem?_eq_getElem hk) (by rw [hs.length]; have := hs.le; omega)⟩
      · refine ⟨_, .done (l := []) hrun hj ?_⟩
        rw [hrun, List.length_cons] at hcounter
        omega
  · exact absurd hpc' hpc

/-- The output is the input under the key stream. -/
def Output (e : Encryption) (input : List UInt8) (n : ℕ) (s : State) : Prop :=
  s.out.length = n ∧ Distinct s.used ∧
    ∀ k x, input[k]? = some x → s.out[k]? = some (x ^^^ e.stream k)

theorem ctr_injOn (e : Encryption) {i j : ℕ} (hi : i < 2 ^ 32) (hj : j < 2 ^ 32)
    (h : e.ctr i = e.ctr j) : i = j := by
  have := congrArg BitVec.toNat (add_right_cancel h)
  rwa [BitVec.toNat_ofNat, BitVec.toNat_ofNat, Nat.mod_eq_of_lt hi, Nat.mod_eq_of_lt hj] at this

theorem Inv.output (hs : Inv e n s) (hpc : s.pc = .returned) : Output e s.input n s := by
  refine ⟨hs.length, fun hlt => ?_, fun k x hx => ?_⟩
  · rw [hs.used, List.nodup_reverse]
    exact (List.nodup_range).map_on fun i hi j hj => e.ctr_injOn
      ((List.mem_range.1 hi).trans hlt) ((List.mem_range.1 hj).trans hlt)
  · have hk := (List.getElem?_eq_some_iff.1 hx).1
    rcases hs.byte k x hx with ⟨r, hr, -⟩ | hle | hout
    · rw [hs.empty hpc] at hr
      cases hr
    · have := hs.ended fun i h => by rw [hpc] at h; cases h
      omega
    · exact hout

theorem Step.input_eq (h : Step e s s') : s'.input = s.input := by
  cases h <;> rfl

theorem Inv.inevitably (hhash : ∀ m, (e.hashFunc m).length = e.keyLen) (hK : 0 < e.keyLen)
    (hne : 0 < s.input.length ∨ e.keyLen = 1) (hs : Inv e n s) :
    e.Inevitably (Output e s.input n) s := by
  obtain ⟨d, hd⟩ : ∃ d, measure s = d := ⟨_, rfl⟩
  induction d using Nat.strongRecOn generalizing s with
  | ind d ih =>
    by_cases hpc : s.pc = .returned
    · exact .returned hpc (hs.output hpc)
    · refine .step hpc (hs.progress hhash hK hne hpc) fun s' hstep => ?_
      rw [← hstep.input_eq] at hne ⊢
      exact ih _ (hd ▸ hstep.measure_lt hK) hne (hs.step hK (hstep.input_eq ▸ hne) hstep) rfl

theorem Inevitably.mono {P Q : State → Prop} (h : e.Inevitably P s) (hPQ : ∀ s, P s → Q s) :
    e.Inevitably Q s := by
  induction h with
  | returned hpc hs => exact .returned hpc (hPQ _ hs)
  | step hpc hex _ ih => exact .step hpc hex ih

/-! ## Both calls -/

theorem transform_inevitably {data out : List UInt8} (hK : 0 < e.keyLen)
    (hhash : ∀ m, (e.hashFunc m).length = e.keyLen) (hne : data ≠ [] ∨ e.keyLen = 1)
    (hle : data.length ≤ out.length) :
    ∃ s, e.transform data out = some s ∧ e.Inevitably (Output e data out.length) s := by
  have hinv : Inv e out.length
      ⟨data, .loop 0, ((data.length : ℤ) - 1).tdiv e.keyLen + 1, [], out, []⟩ := by
    refine ⟨rfl, hle, rfl, .inl rfl, ?_, fun h => absurd rfl (h 0), ?_, ?_, ?_,
      fun h => Pc.noConfusion h⟩
    · rintro _ ⟨⟩
      exact (Nat.zero_mul _).symm
    · simp
    · intro r hr
      cases hr
    · intro k x _
      exact .inr (.inl (by simp))
  exact ⟨_, if_neg hK.ne', hinv.inevitably hhash hK (hne.imp_left List.length_pos_iff.2)⟩

theorem not_step_of_waiting (hpc : s.pc = .wait) (hc : s.counter ≠ 0) (hr : s.running = []) :
    ¬Step e s s' := by
  intro h
  cases h with
  | spawn hpc' | finish hpc' | pad _ hpc' => exact Pc.noConfusion (hpc.symm.trans hpc')
  | wait _ h0 => exact hc h0
  | write hr' | done hr' => exact absurd (hr.symm.trans hr') (by simp)

theorem not_inevitably_nil (out : List UInt8) (P : State → Prop) :
    ¬e.Inevitably P ⟨[], .loop 0, 1, [], out, []⟩ := by
  intro h
  rcases h with ⟨hpc, -⟩ | ⟨-, -, hall⟩
  · cases hpc
  · rcases hall _ (.finish rfl (by simp)) with ⟨hpc, -⟩ | ⟨-, -, hall⟩
    · cases hpc
    · rcases hall _ (.pad out rfl (by simp)) with ⟨hpc, -⟩ | ⟨-, ⟨s', hstep⟩, -⟩
      · cases hpc
      · exact not_step_of_waiting rfl one_ne_zero rfl hstep

theorem of_returns_transform {data out : List UInt8} {P : Except String State → Prop}
    (h : e.Returns P (.ok (e.transform data out))) :
    0 < e.keyLen ∧ (data ≠ [] ∨ e.keyLen = 1) := by
  rw [transform] at h
  by_cases hK : e.keyLen = 0
  · rw [if_pos hK] at h
    exact h.elim
  · rw [if_neg hK] at h
    refine ⟨Nat.pos_of_ne_zero hK, or_iff_not_imp_left.2 fun hdata => ?_⟩
    by_contra h1
    have hzero : (((data.length : ℤ) - 1).tdiv e.keyLen) + 1 = 1 := by
      rw [not_not.1 hdata, List.length_nil, Nat.cast_zero, zero_sub, Int.neg_tdiv,
        Int.tdiv_eq_zero_of_lt (by decide) (by exact_mod_cast (by omega : 1 < e.keyLen))]
      rfl
    rw [hzero, not_not.1 hdata] at h
    exact not_inevitably_nil out _ h

theorem take_eq {data : List UInt8} {n m : ℕ} {t : State} (hs : Output e data n s)
    (ht : Output e s.out m t) : t.out.take data.length = data := by
  refine List.ext_getElem? fun k => ?_
  by_cases hk : k < data.length
  · rw [List.getElem?_take_of_lt hk, List.getElem?_eq_getElem hk,
      ht.2.2 k _ (hs.2.2 k _ (List.getElem?_eq_getElem hk)), UInt8.xor_assoc, UInt8.xor_self,
      UInt8.xor_zero]
  · rw [List.getElem?_eq_none (by rw [List.length_take]; omega), List.getElem?_eq_none (by omega)]

/-- **Encryption and decryption.**  For data that fits the padding, encryption returns in every
    order of its steps, and so does the decryption of what it returns, which begins with the
    data.  No counter is used twice.  This is so unless there is no data: then, for keys of
    more than one byte, the call waits for ever. -/
theorem encrypt_decrypt (e : Encryption) (hhash : ∀ m, (e.hashFunc m).length = e.keyLen)
    (data : List UInt8) (hpad : 0 < e.padding → data.length ≤ e.padding) :
    e.Returns (fun c => ∃ s, c = .ok s ∧ Distinct s.used ∧
      e.Returns (fun p => ∃ t, p = .ok t ∧ Distinct t.used ∧ t.out.take data.length = data)
        (e.decrypt s.out)) (e.encrypt data) ↔
      0 < e.keyLen ∧ (data ≠ [] ∨ e.keyLen = 1) := by
  obtain ⟨out, henc, hle, hlen⟩ : ∃ out, e.encrypt data = .ok (e.transform data out) ∧
      data.length ≤ out.length ∧ (0 < e.padding → (out.length : ℤ) = e.padding) := by
    rw [encrypt]
    by_cases hpos : 0 < e.padding
    · have := hpad hpos
      rw [if_pos hpos, if_neg (not_lt.2 this)]
      refine ⟨_, rfl, ?_, fun _ => ?_⟩ <;> rw [List.length_replicate] <;> omega
    · rw [if_neg hpos]
      exact ⟨_, rfl, by rw [List.length_replicate], fun h => absurd h hpos⟩
  rw [henc]
  refine ⟨of_returns_transform, fun ⟨hK, hne⟩ => ?_⟩
  obtain ⟨s₀, hs₀, hret⟩ := transform_inevitably hK hhash hne hle
  rw [hs₀]
  refine hret.mono fun s hs => ⟨s, rfl, hs.2.1, ?_⟩
  have hdec : e.decrypt s.out = .ok (e.transform s.out (List.replicate s.out.length 0)) :=
    if_neg fun h => h.2 (hs.1 ▸ hlen h.1)
  have hne' : s.out ≠ [] ∨ e.keyLen = 1 := hne.imp_left fun h => by
    have := List.length_pos_iff.2 h
    rw [← List.length_pos_iff, hs.1]
    omega
  have hle' : s.out.length ≤ (List.replicate s.out.length (0 : UInt8)).length := by
    rw [List.length_replicate]
  obtain ⟨t₀, ht₀, hret'⟩ := transform_inevitably hK hhash hne' hle'
  rw [hdec, ht₀]
  exact hret'.mono fun t ht => ⟨t, rfl, ht.2.1, take_eq hs ht⟩

/-- Three bytes under a key of two. -/
theorem encrypt_decrypt_three : Returns ⟨[1, 2], 4, 7, fun m => [m.length.toUInt8, 5]⟩
    (fun c => ∃ s, c = .ok s ∧ Distinct s.used ∧
      Returns ⟨[1, 2], 4, 7, fun m => [m.length.toUInt8, 5]⟩
        (fun p => ∃ t, p = .ok t ∧ Distinct t.used ∧ t.out.take 3 = [3, 1, 4])
        (decrypt ⟨[1, 2], 4, 7, fun m => [m.length.toUInt8, 5]⟩ s.out))
    (encrypt ⟨[1, 2], 4, 7, fun m => [m.length.toUInt8, 5]⟩ [3, 1, 4]) :=
  (encrypt_decrypt ⟨[1, 2], 4, 7, fun m => [m.length.toUInt8, 5]⟩ (fun _ => rfl) [3, 1, 4]
    fun _ => by decide).2 ⟨by decide, .inl (by simp)⟩

/-- Encryption of no data does not return. -/
theorem encrypt_nil : ¬Returns ⟨[1, 2], 0, 7, fun m => [m.length.toUInt8, 5]⟩ (fun _ => True)
    (encrypt ⟨[1, 2], 0, 7, fun m => [m.length.toUInt8, 5]⟩ []) := by
  intro h
  have := (@of_returns_transform _ [] [] _ h).2
  simp [keyLen] at this

end Encryption

end GoEthereum.Swarm
